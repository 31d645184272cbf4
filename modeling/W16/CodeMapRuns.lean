import W16.CodeMap

/-!
# What the code map tracks

What the profiler should know after any calls: the code ranges that have not been overwritten,
and where each shared function is. A call keeps the map in step with this where no entry lies
in the reach of a shared function, whose id is taken for a number of bytes.
-/
namespace W16.CodeMaps

open W16.SplayTrees List

set_option linter.dupNamespace false

variable {E : Type}

inductive Call (E : Type) where
  | addCode (addr : Nat) (entry : E) (size : Nat)
  | moveCode (from_ to_ : Nat)
  | getSharedId (addr : Nat)
  | findEntry (addr : Nat)

namespace CodeMap

/-- The map after a call, with the id that `GetSharedId` returned. -/
def step (m : CodeMap E) : Call E → Option (CodeMap E × List Nat)
  | .addCode addr entry size => (m.addCode addr (some entry) size).map (·, [])
  | .moveCode from_ to_ => (m.moveCode from_ to_).map (·, [])
  | .getSharedId addr => (m.getSharedId addr).map fun (m, id) => (m, [id])
  | .findEntry addr => some ((m.findEntry addr).1, [])

end CodeMap

/-! ## The code ranges and the shared functions -/

structure CodeRange (E : Type) where
  start : Nat
  size : Nat
  entry : E

namespace CodeRange

def Contains (r : CodeRange E) (addr : Nat) : Prop := r.start ≤ addr ∧ addr < r.start + r.size

def Overlaps (q r : CodeRange E) : Prop := q.start < r.start + r.size ∧ r.start < q.start + q.size

instance (r : CodeRange E) (addr : Nat) : Decidable (r.Contains addr) := inferInstanceAs (Decidable (_ ∧ _))

instance (q r : CodeRange E) : Decidable (q.Overlaps r) := inferInstanceAs (Decidable (_ ∧ _))

end CodeRange

/-- A shared function has its address and a name that it keeps when it moves. -/
structure World (E : Type) where
  codes : List (CodeRange E)
  functions : List (Nat × Nat)
  names : Nat

namespace World

def new : World E := ⟨[], [], 0⟩

/-- New code overwrites what was in its range. -/
def addCode (w : World E) (r : CodeRange E) : World E where
  codes := r :: w.codes.filter fun q => ¬ q.Overlaps r
  functions := w.functions.filter fun f => ¬ r.Contains f.1
  names := w.names

/-- No object is at `addr` any more. -/
def leave (w : World E) (addr : Nat) : World E where
  codes := w.codes.filter (·.start ≠ addr)
  functions := w.functions.filter (·.1 ≠ addr)
  names := w.names

/-- A shared function takes the place of one that is not in use. -/
def placeFunction (w : World E) (addr name : Nat) : World E where
  codes := w.codes
  functions := (addr, name) :: w.functions.filter (·.1 ≠ addr)
  names := w.names

section Members

variable (w : World E) (r q : CodeRange E) (addr name : Nat) (f : Nat × Nat)

@[simp] theorem mem_addCode_codes : q ∈ (w.addCode r).codes ↔ q = r ∨ (q ∈ w.codes ∧ ¬ q.Overlaps r) := by
  simp [addCode]

@[simp] theorem mem_addCode_functions :
    f ∈ (w.addCode r).functions ↔ f ∈ w.functions ∧ ¬ r.Contains f.1 := by simp [addCode]

@[simp] theorem mem_leave_codes : q ∈ (w.leave addr).codes ↔ q ∈ w.codes ∧ q.start ≠ addr := by simp [leave]

@[simp] theorem mem_leave_functions : f ∈ (w.leave addr).functions ↔ f ∈ w.functions ∧ f.1 ≠ addr := by
  simp [leave]

@[simp] theorem mem_placeFunction :
    f ∈ (w.placeFunction addr name).functions ↔ f = (addr, name) ∨ (f ∈ w.functions ∧ f.1 ≠ addr) := by
  simp [placeFunction]

end Members

def move (w : World E) (from_ to_ : Nat) : World E :=
  match w.codes.find? (·.start = from_) with
  | some r => (w.leave from_).addCode { r with start := to_ }
  | none =>
    match w.functions.find? (·.1 = from_) with
    | some f => (w.leave from_).placeFunction to_ f.2
    | none => w

/-- What a call does, with the name of the shared function that `GetSharedId` is asked for. -/
def step (w : World E) : Call E → World E × List Nat
  | .addCode addr entry size => (w.addCode ⟨addr, size, entry⟩, [])
  | .moveCode from_ to_ => (if from_ = to_ then w else w.move from_ to_, [])
  | .getSharedId addr =>
    match w.functions.find? (·.1 = addr) with
    | some f => (w, [f.2])
    | none => ({ w.placeFunction addr w.names with names := w.names + 1 }, [w.names])
  | .findEntry _ => (w, [])

end World

/-- Objects do not lie at `NULL`, code is not empty, and a shared function is asked for or moved
to where no code range is. -/
def Legal (w : World E) : Call E → Prop
  | .addCode addr _ size => 0 < addr ∧ 0 < size
  | .moveCode from_ to_ =>
    0 < to_ ∧ ((∃ f ∈ w.functions, f.1 = from_) → ∀ r ∈ w.codes, ¬ r.Contains to_)
  | .getSharedId addr => 0 < addr ∧ ∀ r ∈ w.codes, ¬ r.Contains addr
  | .findEntry _ => True

/-- The nearest entry up to `start` is not a shared function with an id that reaches over it. -/
def Spares (entries : List (Nat × CodeEntryInfo E)) (start : Nat) : Prop :=
  ∀ x ∈ entries, x.2.entry = none → x.1 < start → start < x.1 + x.2.size →
    ∃ y ∈ entries, x.1 < y.1 ∧ y.1 ≤ start

instance (entries : List (Nat × CodeEntryInfo E)) (start : Nat) : Decidable (Spares entries start) :=
  inferInstanceAs (Decidable (∀ x ∈ entries, _))

theorem Spares.congr {l l' : List (Nat × CodeEntryInfo E)} {start : Nat} (h : Spares l start)
    (hmem : ∀ x, x ∈ l' ↔ x ∈ l) : Spares l' start := by
  intro x hx hentry hlt hreach
  obtain ⟨y, hy, hxy, hys⟩ := h x ((hmem x).1 hx) hentry hlt hreach
  exact ⟨y, (hmem y).2 hy, hxy, hys⟩

/-- No shared function reaches over the place of a new entry, no entry lies where a moved shared
function reaches, and the next id is an `int`. -/
def Meets (m : CodeMap E) : Call E → Prop
  | .addCode addr _ _ => Spares m.tree.entries addr
  | .moveCode from_ to_ => from_ ≠ to_ → ∀ x ∈ m.tree.entries, x.1 = from_ →
    Spares (m.tree.entries.filter (·.1 ≠ from_)) to_ ∧
      (x.2.entry = none → ∀ y ∈ m.tree.entries, y.1 ≠ from_ → ¬ (to_ < y.1 ∧ y.1 < to_ + x.2.size))
  | .getSharedId addr => (∃ x ∈ m.tree.entries, x.1 = addr) ∨ m.nextSharedId < maxInt
  | .findEntry _ => True

instance (w : World E) : (call : Call E) → Decidable (Legal w call)
  | .addCode .. | .moveCode .. | .getSharedId _ => inferInstanceAs (Decidable (_ ∧ _))
  | .findEntry _ => isTrue trivial

instance (m : CodeMap E) : (call : Call E) → Decidable (Meets m call)
  | .addCode .. => inferInstanceAs (Decidable (Spares _ _))
  | .moveCode .. => inferInstanceAs (Decidable (_ → ∀ x ∈ m.tree.entries, _))
  | .getSharedId _ => inferInstanceAs (Decidable (_ ∨ _))
  | .findEntry _ => isTrue trivial

/-! ## Tracking -/

/-- The entries are those of the code ranges and of the shared functions, and no two objects
overlap. -/
structure Tracks (m : CodeMap E) (w : World E) : Prop where
  ordered : m.tree.Ordered
  next : m.nextSharedId = w.names + 1
  codes : ∀ a e n, (a, ⟨some e, n⟩) ∈ m.tree.entries ↔ ⟨a, n, e⟩ ∈ w.codes
  functions : ∀ a i, (a, ⟨none, i⟩) ∈ m.tree.entries ↔ ∃ name, i = name + 1 ∧ (a, name) ∈ w.functions
  positive : ∀ x ∈ m.tree.entries, 0 < x.1
  sized : ∀ r ∈ w.codes, 0 < r.size
  apart : ∀ q ∈ w.codes, ∀ r ∈ w.codes, q.start ≠ r.start → ¬ q.Overlaps r
  outside : ∀ f ∈ w.functions, ∀ r ∈ w.codes, ¬ r.Contains f.1
  named : ∀ f ∈ w.functions, f.2 < w.names

namespace Tracks

variable {m m' : CodeMap E} {w : World E}

theorem new : Tracks (CodeMap.new : CodeMap E) World.new where
  ordered := Pairwise.nil
  next := rfl
  codes _ _ _ := ⟨fun h => (nomatch h), fun h => (nomatch h)⟩
  functions _ _ := ⟨fun h => (nomatch h), fun ⟨_, _, h⟩ => (nomatch h)⟩
  positive _ h := nomatch h
  sized _ h := nomatch h
  apart _ h := nomatch h
  outside _ h := nomatch h
  named _ h := nomatch h

/-- Splaying changes nothing. -/
theorem congr (h : Tracks m w) (hent : m'.tree.entries = m.tree.entries)
    (hnext : m'.nextSharedId = m.nextSharedId) : Tracks m' w where
  ordered := by
    rw [Tree.Ordered, hent]
    exact h.ordered
  next := hnext.trans h.next
  codes := by
    rw [hent]
    exact h.codes
  functions := by
    rw [hent]
    exact h.functions
  positive := by
    rw [hent]
    exact h.positive
  sized := h.sized
  apart := h.apart
  outside := h.outside
  named := h.named

theorem sized_entry (h : Tracks m w) {x : Nat × CodeEntryInfo E} (hx : x ∈ m.tree.entries) : 0 < x.2.size := by
  obtain ⟨a, entry, n⟩ := x
  cases entry with
  | some e => exact h.sized _ ((h.codes a e n).1 hx)
  | none =>
    obtain ⟨name, rfl, -⟩ := (h.functions a n).1 hx
    exact Nat.succ_pos name

/-- A code range ends before the next entry. -/
theorem beyond (h : Tracks m w) {a n : Nat} {e : E} (hx : (a, ⟨some e, n⟩) ∈ m.tree.entries)
    {y : Nat × CodeEntryInfo E} (hy : y ∈ m.tree.entries) (hlt : a < y.1) : a + n ≤ y.1 := by
  have hrange := (h.codes a e n).1 hx
  obtain ⟨b, entry, k⟩ := y
  by_contra hnot
  cases entry with
  | some e' =>
    have hother := (h.codes b e' k).1 hy
    have hk := h.sized _ hother
    have hne : a ≠ b := ne_of_lt hlt
    exact h.apart _ hrange _ hother hne ⟨by simp only at hlt hk ⊢; omega, by simpa using hnot⟩
  | none =>
    obtain ⟨name, -, hf⟩ := (h.functions b k).1 hy
    exact h.outside _ hf _ hrange ⟨le_of_lt hlt, by simpa using hnot⟩

variable {addr from_ to_ : Nat}

/-- An object is taken out of the map. -/
theorem leave (h : Tracks m w) {m₁ : CodeMap E} (hord : m₁.tree.Ordered)
    (hnext : m₁.nextSharedId = m.nextSharedId)
    (hmem : ∀ x, x ∈ m₁.tree.entries ↔ x ∈ m.tree.entries ∧ x.1 ≠ addr) : Tracks m₁ (w.leave addr) where
  ordered := hord
  next := hnext.trans h.next
  codes a e n := by
    rw [hmem, h.codes, World.mem_leave_codes]
  functions a i := by
    simp only [hmem, h.functions, World.mem_leave_functions]
    grind
  positive x hx := h.positive x ((hmem x).1 hx).1
  sized r hr := h.sized r ((World.mem_leave_codes ..).1 hr).1
  apart q hq r hr := h.apart q ((World.mem_leave_codes ..).1 hq).1 r ((World.mem_leave_codes ..).1 hr).1
  outside f hf r hr :=
    h.outside f ((World.mem_leave_functions ..).1 hf).1 r ((World.mem_leave_codes ..).1 hr).1
  named f hf := h.named f ((World.mem_leave_functions ..).1 hf).1

/-- New code deletes the code ranges that it overlaps. -/
theorem covered_code (h : Tracks m w) {size a n : Nat} {e : E} (hsize : 0 < size)
    (hx : (a, ⟨some e, n⟩) ∈ m.tree.entries) :
    ¬ CodeMap.Covered m.tree addr (addr + size) (a, ⟨some e, n⟩) ∧ a ≠ addr ↔ ¬ (a < addr + size ∧ addr < a + n) := by
  have hn : 0 < n := h.sized_entry hx
  constructor
  · rintro ⟨hcov, hne⟩ ⟨hstop, hreach⟩
    refine hcov ⟨hstop, hreach, fun y hy hlt => ?_⟩
    have := h.beyond hx hy hlt
    omega
  · intro hover
    refine ⟨fun hcov => hover ⟨hcov.1, hcov.2.1⟩, ?_⟩
    omega

/-- A shared function that does not reach over new code is deleted just when it is in its range. -/
theorem covered_function (h : Tracks m w) {size a i : Nat} (hspares : Spares m.tree.entries addr)
    (hsize : 0 < size) (hx : (a, ⟨none, i⟩) ∈ m.tree.entries) :
    ¬ CodeMap.Covered m.tree addr (addr + size) (a, ⟨none, i⟩) ∧ a ≠ addr ↔ ¬ (addr ≤ a ∧ a < addr + size) := by
  constructor
  · rintro ⟨hcov, hne⟩ ⟨hle, hstop⟩
    refine hcov ⟨hstop, ?_, fun y _ hlt => ?_⟩
    · omega
    · exact lt_of_le_of_lt hle hlt
  · intro hout
    refine ⟨fun ⟨hstop, hreach, hbtw⟩ => ?_, ?_⟩
    · rcases lt_or_ge a addr with hlt | hge
      · obtain ⟨y, hy, hay, hya⟩ := hspares _ hx rfl hlt hreach
        grind
      · exact hout ⟨hge, hstop⟩
    omega

theorem addCode (h : Tracks m w) {size : Nat} (haddr : 0 < addr) (hsize : 0 < size) (e : E)
    (hspares : Spares m.tree.entries addr) :
    ∃ m', m.addCode addr (some e) size = some m' ∧ Tracks m' (w.addCode ⟨addr, size, e⟩) := by
  obtain ⟨m', hrun, hord, hnext, hmem⟩ := CodeMap.addCode_spec h.ordered h.positive addr (some e) hsize
  refine ⟨m', hrun, hord, hnext.trans h.next, fun a e' n => ?_, fun a i => ?_, ?_, ?_, ?_, ?_, ?_⟩
  · rw [hmem, World.mem_addCode_codes, ← h.codes, and_congr_right fun hx => h.covered_code hsize hx]
    simp only [Prod.mk.injEq, CodeEntryInfo.mk.injEq, Option.some.injEq, CodeRange.mk.injEq]
    tauto
  · rw [hmem, or_iff_right (by simp), and_congr_right fun hx => h.covered_function hspares hsize hx,
      h.functions]
    simp only [World.mem_addCode_functions]
    constructor
    · rintro ⟨⟨name, hi, hf⟩, hout⟩
      exact ⟨name, hi, hf, hout⟩
    · rintro ⟨name, hi, hf, hout⟩
      exact ⟨⟨name, hi, hf⟩, hout⟩
  · intro x hx
    rcases (hmem x).1 hx with rfl | ⟨hx, -, -⟩
    · exact haddr
    · exact h.positive x hx
  · intro r hr
    rcases (World.mem_addCode_codes ..).1 hr with rfl | ⟨hr, -⟩
    · exact hsize
    · exact h.sized r hr
  · intro q hq r hr hne
    rcases (World.mem_addCode_codes ..).1 hq with rfl | ⟨hq, hqnew⟩
    · rcases (World.mem_addCode_codes ..).1 hr with rfl | ⟨-, hrnew⟩
      · exact absurd rfl hne
      · exact fun hqr => hrnew ⟨hqr.2, hqr.1⟩
    · rcases (World.mem_addCode_codes ..).1 hr with rfl | ⟨hr, -⟩
      · exact hqnew
      · exact h.apart q hq r hr hne
  · intro f hf r hr
    obtain ⟨hf, hout⟩ := (World.mem_addCode_functions ..).1 hf
    rcases (World.mem_addCode_codes ..).1 hr with rfl | ⟨hr, -⟩
    · exact hout
    · exact h.outside f hf r hr
  · exact fun f hf => h.named f ((World.mem_addCode_functions ..).1 hf).1

/-- A shared function is put where no code is. -/
theorem place (h : Tracks m w) {name names : Nat} (hord : m'.tree.Ordered)
    (hnext : m'.nextSharedId = names + 1)
    (hmem : ∀ x, x ∈ m'.tree.entries ↔ x = (addr, ⟨none, name + 1⟩) ∨ (x ∈ m.tree.entries ∧ x.1 ≠ addr))
    (haddr : 0 < addr) (hout : ∀ r ∈ w.codes, ¬ r.Contains addr) (hname : name < names)
    (hnames : w.names ≤ names) : Tracks m' { w.placeFunction addr name with names := names } where
  ordered := hord
  next := hnext
  codes a e n := by
    rw [hmem, or_iff_right (by simp), h.codes]
    refine and_iff_left_of_imp fun hr heq => ?_
    have hpos := h.sized _ hr
    exact hout _ hr ⟨le_of_eq heq, by simp only at heq hpos ⊢; omega⟩
  functions a i := by
    simp only [hmem, World.mem_placeFunction, Prod.mk.injEq, CodeEntryInfo.mk.injEq, true_and, h.functions]
    grind
  positive x hx := by
    rcases (hmem x).1 hx with rfl | ⟨hx, -⟩
    · exact haddr
    · exact h.positive x hx
  sized := h.sized
  apart := h.apart
  outside f hf r hr := by
    rcases (World.mem_placeFunction ..).1 hf with rfl | ⟨hf, -⟩
    · exact hout r hr
    · exact h.outside f hf r hr
  named f hf := by
    rcases (World.mem_placeFunction ..).1 hf with rfl | ⟨hf, -⟩
    · exact hname
    · exact lt_of_lt_of_le (h.named f hf) hnames

/-- A shared function is added where no code is, and where its id reaches over no other entry. -/
theorem addFunction (h : Tracks m w) {name : Nat} (haddr : 0 < addr) (hname : name < w.names)
    (hspares : Spares m.tree.entries addr) (hout : ∀ r ∈ w.codes, ¬ r.Contains addr)
    (hclear : ∀ x ∈ m.tree.entries, ¬ (addr < x.1 ∧ x.1 < addr + (name + 1))) :
    ∃ m', m.addCode addr none (name + 1) = some m' ∧ Tracks m' (w.placeFunction addr name) ∧
      ∀ x, x.1 ≠ addr → (x ∈ m'.tree.entries ↔ x ∈ m.tree.entries) := by
  obtain ⟨m', hrun, hord, hnext, hmem⟩ :=
    CodeMap.addCode_spec h.ordered h.positive addr none (Nat.succ_pos name)
  have hcov : ∀ x ∈ m.tree.entries, x.1 ≠ addr → ¬ CodeMap.Covered m.tree addr (addr + (name + 1)) x := by
    rintro ⟨a, entry, n⟩ hx hne ⟨hstop, hreach, hbtw⟩
    have hlt : a < addr := by
      have := hclear _ hx
      omega
    cases entry with
    | some e => exact hout _ ((h.codes a e n).1 hx) ⟨le_of_lt hlt, hreach⟩
    | none =>
      obtain ⟨y, hy, hay, hya⟩ := hspares _ hx rfl hlt hreach
      grind
  have hmem' : ∀ x, x ∈ m'.tree.entries ↔ x = (addr, ⟨none, name + 1⟩) ∨ (x ∈ m.tree.entries ∧ x.1 ≠ addr) := by
    grind
  refine ⟨m', hrun, h.place hord (hnext.trans h.next) hmem' haddr hout hname (le_rfl),
    fun x hne => ?_⟩
  grind

/-! ## One step -/

theorem moveFunction (h : Tracks m w) {name : Nat} (hne : from_ ≠ to_)
    (hf : (from_, name) ∈ w.functions) (hto : 0 < to_) (hout : ∀ r ∈ w.codes, ¬ r.Contains to_)
    (hmeets : Meets m (.moveCode from_ to_)) :
    ∃ m', m.moveCode from_ to_ = some m' ∧ Tracks m' ((w.leave from_).placeFunction to_ name) ∧
      ∀ x, x.1 ≠ from_ → x.1 ≠ to_ → (x ∈ m'.tree.entries ↔ x ∈ m.tree.entries) := by
  have hmem := (h.functions _ _).2 ⟨name, rfl, hf⟩
  obtain ⟨m₁, hrun, hord, hnext, hent⟩ := (CodeMap.moveCode_spec h.ordered hne).2 _ hmem
  obtain ⟨hspares, hclear⟩ := hmeets hne _ hmem rfl
  have hleave := h.leave hord hnext hent
  obtain ⟨m', hadd, htracks, hoth⟩ := hleave.addFunction hto (h.named _ hf)
    (hspares.congr fun x => by simp [hent])
    (fun r hr => hout r ((World.mem_leave_codes ..).1 hr).1)
    (fun x hx => hclear rfl x ((hent x).1 hx).1 ((hent x).1 hx).2)
  grind

theorem moveRange (h : Tracks m w) (hne : from_ ≠ to_) {r : CodeRange E}
    (hr : r ∈ w.codes) (hfrom : r.start = from_) (hto : 0 < to_) (hmeets : Meets m (.moveCode from_ to_)) :
    ∃ m', m.moveCode from_ to_ = some m' ∧ Tracks m' ((w.leave from_).addCode { r with start := to_ }) := by
  have hmem : (from_, ⟨some r.entry, r.size⟩) ∈ m.tree.entries := (h.codes _ _ _).2 (hfrom ▸ hr)
  obtain ⟨m₁, hrun, hord, hnext, hent⟩ := (CodeMap.moveCode_spec h.ordered hne).2 _ hmem
  obtain ⟨hspares, -⟩ := hmeets hne _ hmem rfl
  have hleave := h.leave hord hnext hent
  obtain ⟨m', hadd, htracks⟩ := hleave.addCode hto (h.sized r hr) r.entry
    (hspares.congr fun x => by simp [hent])
  exact ⟨m', hrun.trans hadd, htracks⟩

/-- Where no object is known, nothing is moved. -/
theorem moveNothing (h : Tracks m w) (hne : from_ ≠ to_)
    (hcodes : ∀ r ∈ w.codes, r.start ≠ from_) (hfunctions : ∀ f ∈ w.functions, f.1 ≠ from_) :
    ∃ m', m.moveCode from_ to_ = some m' ∧ Tracks m' w := by
  have hnew : ∀ x ∈ m.tree.entries, x.1 ≠ from_ := by
    rintro ⟨a, entry, n⟩ hx
    cases entry with
    | some e => exact hcodes _ ((h.codes a e n).1 hx)
    | none =>
      obtain ⟨name, -, hf⟩ := (h.functions a n).1 hx
      exact hfunctions _ hf
  obtain ⟨m', hrun, hent, hnext⟩ := (CodeMap.moveCode_spec h.ordered hne).1 hnew
  exact ⟨m', hrun, h.congr hent hnext⟩

theorem moveCode (h : Tracks m w) (hlegal : Legal w (.moveCode from_ to_))
    (hmeets : Meets m (.moveCode from_ to_)) :
    ∃ m', m.moveCode from_ to_ = some m' ∧ Tracks m' (w.step (.moveCode from_ to_)).1 := by
  obtain ⟨hto, hout⟩ := hlegal
  by_cases hne : from_ = to_
  · refine ⟨m, if_pos hne, ?_⟩
    rw [World.step, if_pos hne]
    exact h
  · rw [World.step, if_neg hne, World.move]
    cases hr : w.codes.find? (·.start = from_) with
    | some r => exact h.moveRange hne (mem_of_find?_eq_some hr) (by simpa using List.find?_some hr) hto hmeets
    | none =>
      cases hf : w.functions.find? (·.1 = from_) with
      | some f =>
        have hmem := mem_of_find?_eq_some hf
        have hkey : f.1 = from_ := by simpa using List.find?_some hf
        obtain ⟨m', hrun, htracks, -⟩ :=
          h.moveFunction hne (show (from_, f.2) ∈ w.functions from hkey ▸ hmem) hto (hout ⟨f, hmem, hkey⟩) hmeets
        exact ⟨m', hrun, htracks⟩
      | none => exact h.moveNothing hne (by simpa using hr) (by simpa using hf)

theorem getSharedId (h : Tracks m w) (hlegal : Legal w (.getSharedId addr))
    (hmeets : Meets m (.getSharedId addr)) :
    ∃ m' name, w.step (.getSharedId addr) = ((w.step (.getSharedId addr)).1, [name]) ∧
      m.getSharedId addr = some (m', name + 1) ∧ Tracks m' (w.step (.getSharedId addr)).1 := by
  obtain ⟨haddr, hout⟩ := hlegal
  obtain ⟨hknown, hnew⟩ := CodeMap.getSharedId_spec h.ordered addr
  rw [World.step]
  cases hf : w.functions.find? (·.1 = addr) with
  | some f =>
    have hkey : f.1 = addr := by simpa using List.find?_some hf
    have hmem := mem_of_find?_eq_some hf
    obtain ⟨m', hrun, hent, hnext⟩ :=
      hknown (f.2 + 1) ((h.functions _ _).2 ⟨f.2, rfl, hkey ▸ hmem⟩)
    exact ⟨m', f.2, rfl, hrun, h.congr hent hnext⟩
  | none =>
    have hno : ∀ x ∈ m.tree.entries, x.1 ≠ addr := by
      rintro ⟨a, entry, n⟩ hx rfl
      cases entry with
      | some e =>
        have hrange := (h.codes a e n).1 hx
        have hpos := h.sized _ hrange
        exact hout _ hrange ⟨le_rfl, by simp only at hpos ⊢; omega⟩
      | none =>
        obtain ⟨name, -, hmem⟩ := (h.functions a n).1 hx
        simpa using List.find?_eq_none.1 hf _ hmem
    have hnext : m.nextSharedId < maxInt := hmeets.resolve_left fun ⟨x, hx, hkey⟩ => hno x hx hkey
    obtain ⟨m', hrun, hord, hnext', hent⟩ := hnew hno hnext
    rw [h.next] at hrun hnext' hent
    refine ⟨m', w.names, rfl, hrun, h.place hord hnext' (fun x => ?_) haddr hout
      (Nat.lt_succ_self _) (Nat.le_succ _)⟩
    grind

theorem step (h : Tracks m w) (call : Call E) (hlegal : Legal w call) (hmeets : Meets m call) :
    ∃ m', m.step call = some (m', (w.step call).2.map (· + 1)) ∧ Tracks m' (w.step call).1 := by
  cases call with
  | addCode addr entry size =>
    obtain ⟨m', hrun, htracks⟩ := h.addCode hlegal.1 hlegal.2 entry hmeets
    exact ⟨m', by rw [CodeMap.step, hrun]; rfl, htracks⟩
  | moveCode from_ to_ =>
    obtain ⟨m', hrun, htracks⟩ := h.moveCode hlegal hmeets
    exact ⟨m', by rw [CodeMap.step, hrun]; rfl, htracks⟩
  | getSharedId addr =>
    obtain ⟨m', name, hname, hrun, htracks⟩ := h.getSharedId hlegal hmeets
    exact ⟨m', by rw [CodeMap.step, hrun, hname]; rfl, htracks⟩
  | findEntry addr =>
    obtain ⟨hent, hnext, -⟩ := CodeMap.findEntry_spec h.ordered addr
    exact ⟨_, rfl, h.congr hent hnext⟩

theorem findEntry (h : Tracks m w) (addr : Nat) (e : E) :
    (m.findEntry addr).2 = some e ↔ ∃ r ∈ w.codes, r.Contains addr ∧ r.entry = e := by
  rw [(CodeMap.findEntry_spec h.ordered addr).2.2]
  constructor
  · rintro ⟨⟨a, entry, n⟩, hx, hentry, hle, hlt, -⟩
    subst hentry
    exact ⟨_, (h.codes a e n).1 hx, ⟨hle, hlt⟩, rfl⟩
  · rintro ⟨r, hr, ⟨hle, hlt⟩, rfl⟩
    have hx := (h.codes _ _ _).2 hr
    refine ⟨_, hx, rfl, hle, hlt, fun y hy hya => ?_⟩
    by_contra hnot
    have hbeyond := h.beyond hx hy (Nat.not_le.1 hnot)
    omega

end Tracks

end W16.CodeMaps

/-!
## Runs of the code map

The map after any calls that meet the condition, and a run in which a move affects an entry that
lies in the reach of the moved shared function.
-/
namespace W16.CodeMaps

open W16.SplayTrees

variable {E : Type}

namespace CodeMap

/-- The ids are those that the calls of `GetSharedId` returned. -/
def run : CodeMap E → List (Call E) → Option (CodeMap E × List Nat)
  | m, [] => some (m, [])
  | m, call :: calls => do
    let (m, id) ← m.step call
    let (m, ids) ← run m calls
    some (m, id ++ ids)

end CodeMap

namespace World

def run : World E → List (Call E) → World E × List Nat
  | w, [] => (w, [])
  | w, call :: calls =>
    let (w, name) := w.step call
    let (w, names) := run w calls
    (w, name ++ names)

end World

/-- Every call is legal and meets the condition on the map before it. -/
def Spared : CodeMap E → World E → List (Call E) → Prop
  | _, _, [] => True
  | m, w, call :: calls => Legal w call ∧ Meets m call ∧
    ∀ m' ids, m.step call = some (m', ids) → Spared m' (w.step call).1 calls

theorem run_tracks {m : CodeMap E} {w : World E} {calls : List (Call E)} (h : Tracks m w)
    (hspared : Spared m w calls) :
    ∃ m', m.run calls = some (m', (w.run calls).2.map (· + 1)) ∧ Tracks m' (w.run calls).1 := by
  induction calls generalizing m w with
  | nil => exact ⟨m, rfl, h⟩
  | cons call calls ih =>
    obtain ⟨hlegal, hmeets, hrest⟩ := hspared
    obtain ⟨m₁, hstep, h₁⟩ := h.step call hlegal hmeets
    grind [CodeMap.run, World.run]

/-- In every run whose calls meet the condition, code ranges do not overlap, an address is in the
entry of the code range that contains it, and calls of `GetSharedId` return one id just when they
ask for one function. A move of a shared function that meets the condition affects no other entry. -/
theorem codeMap_tracks (calls : List (Call E)) (h : Spared .new .new calls) :
    ∃ m ids, CodeMap.new.run calls = some (m, ids) ∧
      (∀ x ∈ m.tree.entries, ∀ y ∈ m.tree.entries, x.2.entry ≠ none → y.2.entry ≠ none → x.1 < y.1 →
        x.1 + x.2.size ≤ y.1) ∧
      (∀ addr e, (m.findEntry addr).2 = some e ↔
        ∃ r ∈ (World.new.run calls).1.codes, r.Contains addr ∧ r.entry = e) ∧
      ids.length = (World.new.run calls).2.length ∧
      (∀ i j : Nat, ids[i]? = ids[j]? ↔ (World.new.run calls).2[i]? = (World.new.run calls).2[j]?) ∧
      ∀ from_ to_ name, (from_, name) ∈ (World.new.run calls).1.functions →
        Legal (World.new.run calls).1 (.moveCode from_ to_) → Meets m (.moveCode from_ to_) →
        ∃ m', m.moveCode from_ to_ = some m' ∧
          ∀ x, x.1 ≠ from_ → x.1 ≠ to_ → (x ∈ m'.tree.entries ↔ x ∈ m.tree.entries) := by
  obtain ⟨m, hrun, htracks⟩ := run_tracks Tracks.new h
  refine ⟨m, _, hrun, ?_, htracks.findEntry, List.length_map _, fun i j => ?_, ?_⟩
  · rintro ⟨a, entry, n⟩ hx y hy hcode - hlt
    obtain ⟨e, rfl⟩ := Option.ne_none_iff_exists'.1 hcode
    exact htracks.beyond hx hy hlt
  · rw [List.getElem?_map, List.getElem?_map]
    grind
  · intro from_ to_ name hf hlegal hmeets
    by_cases hne : from_ = to_
    · exact ⟨m, if_pos hne, fun _ _ _ => Iff.rfl⟩
    · obtain ⟨m', hmove, -, hothers⟩ :=
        htracks.moveFunction hne hf hlegal.1 (hlegal.2 ⟨_, hf, rfl⟩) hmeets
      exact ⟨m', hmove, hothers⟩

/-- A code range, and a shared function that moves next to it. -/
def movedCalls : List (Call Unit) := [.addCode 16 () 8, .getSharedId 32, .moveCode 32 40, .getSharedId 40]

theorem movedCalls_spared : Spared .new .new movedCalls := by
  refine ⟨by decide, by decide, fun m ids h => ?_⟩
  obtain ⟨rfl, rfl⟩ := Prod.mk.inj (Option.some.inj h)
  refine ⟨by decide, by decide, fun m ids h => ?_⟩
  obtain ⟨rfl, rfl⟩ := Prod.mk.inj (Option.some.inj h)
  refine ⟨by decide, by decide, fun m ids h => ?_⟩
  obtain ⟨rfl, rfl⟩ := Prod.mk.inj (Option.some.inj h)
  exact ⟨by decide, by decide, fun _ _ _ => trivial⟩

theorem codeMap_tracks_moved : ∃ m ids, CodeMap.new.run movedCalls = some (m, ids) ∧
    (m.findEntry 20).2 = some () ∧ ids[0]? = ids[1]? := by
  obtain ⟨m, ids, hrun, -, hfind, -, hids, -⟩ := codeMap_tracks movedCalls movedCalls_spared
  exact ⟨m, ids, hrun, (hfind 20 ()).2 (by decide), (hids 0 1).2 rfl⟩

/-! ## A move that affects another entry -/

def LegalRun : World E → List (Call E) → Prop
  | _, [] => True
  | w, call :: calls => Legal w call ∧ LegalRun (w.step call).1 calls

/-- The `n` shared functions behind the first `k` of those at multiples of 4096. -/
def asks : Nat → Nat → List (Call E)
  | _, 0 => []
  | k, n + 1 => .getSharedId (4096 * (k + 1)) :: asks (k + 1) n

/-- The first `k` of them are known. -/
structure Asked (k : Nat) (m : CodeMap E) (w : World E) : Prop extends Tracks m w where
  noCode : w.codes = []
  count : w.names = k
  asked : ∀ f, f ∈ w.functions ↔ f.2 < k ∧ f.1 = 4096 * (f.2 + 1)

theorem Asked.step {k : Nat} {m : CodeMap E} {w : World E} (h : Asked k m w) (hk : k + 1 < maxInt) :
    ∃ m' w', w.step (.getSharedId (4096 * (k + 1))) = (w', [k]) ∧
      m.step (.getSharedId (4096 * (k + 1))) = some (m', [k + 1]) ∧ Asked (k + 1) m' w' := by
  have hfind : w.functions.find? (·.1 = 4096 * (k + 1)) = none := by
    refine List.find?_eq_none.2 fun f hf => ?_
    have := (h.asked f).1 hf
    simp only [decide_eq_true_eq]
    omega
  have hworld : w.step (.getSharedId (4096 * (k + 1))) =
      ({ w.placeFunction (4096 * (k + 1)) w.names with names := w.names + 1 }, [w.names]) := by
    rw [World.step, hfind]
  obtain ⟨m', hrun, htracks⟩ := h.toTracks.step (.getSharedId (4096 * (k + 1)))
    ⟨by omega, by rw [h.noCode]; exact fun r hr => (nomatch hr)⟩ (.inr (by rw [h.next, h.count]; exact hk))
  rw [hworld, h.count] at hrun htracks
  refine ⟨m', _, by rw [hworld, h.count], hrun, htracks, h.noCode, rfl, fun f => ?_⟩
  rw [show f ∈ _ ↔ _ from World.mem_placeFunction w (4096 * (k + 1)) k f, h.asked, Prod.ext_iff]
  omega

/-- The calls up to the first `n` functions, before any others. -/
theorem asks_run {k : Nat} {m : CodeMap E} {w : World E} (h : Asked k m w) (n : Nat) (hn : k + n < maxInt) :
    ∃ m' w', Asked (k + n) m' w' ∧ ∀ calls,
      w.run (asks k n ++ calls) = ((w'.run calls).1, List.range' k n ++ (w'.run calls).2) ∧
      m.run (asks k n ++ calls) = (m'.run calls).map (fun r => (r.1, (List.range' k n).map (· + 1) ++ r.2)) ∧
      (LegalRun w' calls → LegalRun w (asks k n ++ calls)) := by
  induction n generalizing k m w with
  | zero =>
    refine ⟨m, w, h, fun calls => ⟨rfl, ?_, id⟩⟩
    simp [asks]
  | succ n ih =>
    obtain ⟨m₁, w₁, hworld, hstep, h₁⟩ := h.step (by omega)
    obtain ⟨m', w', h', hcalls⟩ := ih h₁ (by omega)
    refine ⟨m', w', by rwa [Nat.add_right_comm, Nat.add_assoc] at h', fun calls => ?_⟩
    obtain ⟨hw, hm, hlegal⟩ := hcalls calls
    refine ⟨?_, ?_, fun hrest => ⟨⟨by omega, ?_⟩, ?_⟩⟩
    · simp [asks, World.run, hworld, hw, List.range'_succ]
    · rw [asks, List.cons_append, CodeMap.run, hstep]
      cases hrun : m'.run calls with
      | none => simp [hm, hrun]
      | some r => simp [hm, hrun, List.range'_succ]
    · rw [h.noCode]
      exact fun r hr => nomatch hr
    · rw [hworld]
      exact hlegal hrest

/-- The last of 300 shared functions moves to less than 300 bytes before the first. -/
def moveCalls : List (Call Unit) := [.moveCode (4096 * 300) 3840, .getSharedId 4096]

theorem moveCalls_world {m : CodeMap Unit} {w : World Unit} (h : Asked 300 m w) :
    LegalRun w moveCalls ∧ (w.run moveCalls).2 = [0] := by
  have hmove : ∃ w', w.step (.moveCode (4096 * 300) 3840) = (w', []) ∧ w'.codes = [] ∧
      (4096, 0) ∈ w'.functions ∧ ∀ f ∈ w'.functions, f.1 = 4096 → f.2 = 0 := by
    have hcode : w.codes.find? (·.start = 4096 * 300) = none := by rw [h.noCode]; rfl
    cases hf : w.functions.find? (·.1 = 4096 * 300) with
    | none =>
      have := List.find?_eq_none.1 hf (4096 * 300, 299) ((h.asked _).2 ⟨by decide, rfl⟩)
      simp at this
    | some f =>
      refine ⟨(w.leave (4096 * 300)).placeFunction 3840 f.2, ?_, ?_, ?_, fun g hg h4096 => ?_⟩
      · simp only [World.step, World.move, hcode, hf]
        rfl
      · simp [World.placeFunction, World.leave, h.noCode]
      · simp [h.asked]
      · rcases (World.mem_placeFunction ..).1 hg with rfl | ⟨hg, -⟩
        · simp at h4096
        · have := (h.asked g).1 ((World.mem_leave_functions ..).1 hg).1
          omega
  obtain ⟨w', hstep, hcodes, hmem, hname⟩ := hmove
  have hask : w'.step (.getSharedId 4096) = (w', [0]) := by
    rw [World.step]
    grind
  refine ⟨⟨⟨by decide, fun _ => ?_⟩, ⟨by decide, ?_⟩, trivial⟩, ?_⟩
  · rw [h.noCode]
    exact fun r hr => nomatch hr
  · grind
  · simp [moveCalls, World.run, hstep, hask]

theorem moveCalls_map {m : CodeMap Unit} {w : World Unit} (h : Asked 300 m w) :
    ∃ m', m.run moveCalls = some (m', [301]) := by
  have hlast : (4096 * 300, ⟨none, 300⟩) ∈ m.tree.entries :=
    (h.functions _ _).2 ⟨299, rfl, (h.asked _).2 ⟨by decide, rfl⟩⟩
  have hfirst : (4096, ⟨none, 1⟩) ∈ m.tree.entries :=
    (h.functions _ _).2 ⟨0, rfl, (h.asked _).2 ⟨by decide, rfl⟩⟩
  obtain ⟨m₁, hmove, hord, hnext, hmem⟩ :=
    (CodeMap.moveCode_spec h.ordered (show 4096 * 300 ≠ 3840 by decide)).2 _ hlast
  obtain ⟨m₂, hadd, hord', hnext', hmem'⟩ := CodeMap.addCode_spec hord
    (fun x hx => h.positive x ((hmem x).1 hx).1) 3840 none (show 0 < 300 by decide)
  have hgone : ∀ x ∈ m₂.tree.entries, x.1 ≠ 4096 := by
    intro x hx hkey
    rcases (hmem' x).1 hx with rfl | ⟨hx, hcov, -⟩
    · simp at hkey
    · obtain rfl := h.ordered.eq_of_key ((hmem x).1 hx).1 hfirst hkey
      exact hcov ⟨by decide, by decide, fun y _ hlt => by omega⟩
  have hcount : m₂.nextSharedId = 301 := by rw [hnext', hnext, h.next, h.count]
  obtain ⟨m₃, hask, -⟩ := (CodeMap.getSharedId_spec hord' 4096).2 hgone (by rw [hcount]; decide)
  simp [moveCalls, CodeMap.run, CodeMap.step, hmove, hadd, hask, hcount]

/-- The first function is given a second id. -/
theorem codeMap_loses_function : ¬ ∀ calls : List (Call Unit), LegalRun .new calls →
      ∃ m ids, CodeMap.new.run calls = some (m, ids) ∧
        ∀ i j : Nat, ids[i]? = ids[j]? ↔ (World.new.run calls).2[i]? = (World.new.run calls).2[j]? := by
  intro hall
  have hnew : Asked 0 (CodeMap.new : CodeMap Unit) World.new :=
    ⟨.new, rfl, rfl, fun f => ⟨fun hf => (nomatch hf), fun hf => absurd hf.1 (Nat.not_lt_zero _)⟩⟩
  obtain ⟨m, w, h, hcalls⟩ := asks_run hnew 300 (by decide)
  obtain ⟨hw, hm, hlegal⟩ := hcalls moveCalls
  obtain ⟨hlegal', hnames⟩ := moveCalls_world h
  obtain ⟨m', hrun⟩ := moveCalls_map h
  obtain ⟨m'', ids, hrun', hids⟩ := hall _ (hlegal hlegal')
  rw [hm, hrun] at hrun'
  obtain ⟨-, rfl⟩ := Prod.mk.inj (Option.some.inj hrun')
  have h300 := (hids 0 300).2 (by simp [hw, hnames])
  simp at h300

end W16.CodeMaps
