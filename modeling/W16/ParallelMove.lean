import Mathlib.Logic.Function.Basic
import Mathlib.Data.List.Basic

/-!
# Parallel moves

Moves that are to happen at once are performed one after the other on a store. A move that
is left finds its value at its current source, which swaps may have changed, and one that
is done has left it in its destination.
-/
namespace W16.ParallelMove

open Function

variable {Op Loc W : Type}

/-- The moves, the words that their operands occupy and what each destination should hold. -/
structure Problem (Op Loc W : Type) where
  locs : Op → List Loc
  isConstant : Op → Bool
  isOperand : Op → Prop
  /-- Places that are no operands and may hold a value for a while. -/
  isSpare : Op → Prop
  isScratch : Loc → Prop
  kind : Op → Bool
  count : Nat
  source : Nat → Op
  destination : Nat → Op
  /-- The words are the value that the move was to deliver. -/
  carries : Nat → List W → Prop
  initial : Loc → W

/-- The value of an operand. -/
def read (P : Problem Op Loc W) (m : Loc → W) (a : Op) : List W := (P.locs a).map m

theorem read_congr {P : Problem Op Loc W} {m m' : Loc → W} {a : Op} (h : ∀ l ∈ P.locs a, m' l = m l) :
    read P m' a = read P m a := List.map_congr_left h

/-- No two operands share a word, and none uses a scratch word. -/
structure WellFormed (P : Problem Op Loc W) : Prop where
  dest_inj : ∀ i < P.count, ∀ j < P.count, P.destination i = P.destination j → i = j
  dest_operand : ∀ i < P.count, P.isOperand (P.destination i)
  dest_variable : ∀ i < P.count, P.isConstant (P.destination i) = false
  source_operand : ∀ i < P.count, P.isOperand (P.source i)
  source_kind : ∀ i < P.count, P.kind (P.source i) = P.kind (P.destination i)
  source_carries : ∀ i < P.count, P.isConstant (P.source i) = false →
    P.carries i (read P P.initial (P.source i))
  disjoint : ∀ a b, P.isOperand a → P.isOperand b → a ≠ b → ∀ l ∈ P.locs a, l ∉ P.locs b
  no_scratch : ∀ a, P.isOperand a → ∀ l ∈ P.locs a, ¬P.isScratch l
  spare_scratch : ∀ a, P.isSpare a → ∀ l ∈ P.locs a, P.isScratch l

/-- Where the sources of the moves that are left can be. -/
structure Placed (P : Problem Op Loc W) (src : Nat → Option Op) : Prop where
  constant : ∀ i < P.count, ∀ a, src i = some a → P.isConstant a = true → a = P.source i
  place : ∀ i < P.count, ∀ a, src i = some a → P.isOperand a ∨ P.isSpare a
  kind : ∀ i < P.count, ∀ a, src i = some a → P.kind a = P.kind (P.destination i)

/-- What holds between two moves. -/
structure Holding (P : Problem Op Loc W) (m : Loc → W) (src : Nat → Option Op) : Prop extends Placed P src where
  live : ∀ i < P.count, ∀ a, src i = some a → P.isConstant a = false → P.carries i (read P m a)
  done : ∀ i < P.count, src i = none → P.carries i (read P m (P.destination i))
  frame : ∀ l, ¬P.isScratch l → (∀ i < P.count, l ∉ P.locs (P.destination i)) → m l = P.initial l

/-- After the operands of a move have been swapped the move is done, and the readers of either
operand read the other. -/
def swapped [DecidableEq Op] (src : Nat → Option Op) (i : Nat) (a b : Op) (j : Nat) : Option Op :=
  if j = i then none else if src j = some a then some b else if src j = some b then some a else src j

/-- The words that may be overwritten: destinations that are still to be written and that no move
reads, and scratch words that hold no source. -/
def Free (P : Problem Op Loc W) (src : Nat → Option Op) (l : Loc) : Prop :=
  (∃ k < P.count, src k ≠ none ∧ l ∈ P.locs (P.destination k) ∧ ∀ j < P.count, src j ≠ some (P.destination k)) ∨
  (P.isScratch l ∧ ∀ j < P.count, ∀ a, src j = some a → l ∉ P.locs a)

variable {P : Problem Op Loc W} {m m' : Loc → W} {src : Nat → Option Op}

theorem Placed.init (wf : WellFormed P) (h : ∀ i < P.count, src i = some (P.source i)) : Placed P src := by
  have hsrc : ∀ i < P.count, ∀ a, src i = some a → a = P.source i := by
    grind
  refine ⟨fun i hi a ha _ => hsrc i hi a ha, fun i hi a ha => ?_, fun i hi a ha => ?_⟩
  · rw [hsrc i hi a ha]
    exact .inl (wf.source_operand i hi)
  · rw [hsrc i hi a ha]
    exact wf.source_kind i hi

theorem Holding.init (wf : WellFormed P) (h : ∀ i < P.count, src i = some (P.source i)) :
    Holding P P.initial src := by
  refine ⟨.init wf h, fun i hi a ha hc => ?_, fun i hi h0 => ?_, fun l _ _ => rfl⟩
  · rw [h i hi, Option.some_inj] at ha
    rw [← ha] at hc ⊢
    exact wf.source_carries i hi hc
  · rw [h i hi] at h0
    cases h0

section Free

variable (wf : WellFormed P) (h : Placed P src) {l : Loc} (hl : Free P src l)
include wf h hl

theorem Free.not_mem_source {j : Nat} (hj : j < P.count) {a : Op} (ha : src j = some a) : l ∉ P.locs a := by
  intro hla
  rcases hl with ⟨k, hk, -, hlk, hread⟩ | ⟨-, hno⟩
  · rcases h.place j hj a ha with hop | hs
    · refine wf.disjoint _ _ (wf.dest_operand k hk) hop ?_ l hlk hla
      rintro rfl
      exact hread j hj ha
    · exact wf.no_scratch _ (wf.dest_operand k hk) l hlk (wf.spare_scratch a hs l hla)
  · exact hno j hj a ha hla

omit h in
theorem Free.not_mem_done {j : Nat} (hj : j < P.count) (hnone : src j = none) :
    l ∉ P.locs (P.destination j) := by
  intro hlj
  rcases hl with ⟨k, hk, hlive, hlk, -⟩ | ⟨hs, -⟩
  · refine wf.disjoint _ _ (wf.dest_operand k hk) (wf.dest_operand j hj) ?_ l hlk hlj
    intro he
    rw [wf.dest_inj k hk j hj he] at hlive
    exact hlive hnone
  · exact wf.no_scratch _ (wf.dest_operand j hj) l hlj hs

omit wf h in
theorem Free.not_frame (hs : ¬P.isScratch l) : ∃ i < P.count, l ∈ P.locs (P.destination i) := by
  rcases hl with ⟨k, hk, -, hlk, -⟩ | ⟨hs', -⟩
  · exact ⟨k, hk, hlk⟩
  · exact absurd hs' hs

end Free

theorem update_none {i j : Nat} {a : Op} (h : update src i none j = some a) : src j = some a := by
  grind

theorem Placed.move (h : Placed P src) (i : Nat) : Placed P (update src i none) :=
  ⟨fun j hj a ha => h.constant j hj a (update_none ha), fun j hj a ha => h.place j hj a (update_none ha),
    fun j hj a ha => h.kind j hj a (update_none ha)⟩

/-- The three ways in which a move that is left has its source after a swap. -/
theorem swapped_cases [DecidableEq Op] {i j : Nat} {a b c : Op} (h : swapped src i a b j = some c) :
    (src j = some a ∧ c = b) ∨ (src j = some b ∧ c = a) ∨ (src j = some c ∧ c ≠ a ∧ c ≠ b) := by
  unfold swapped at h
  grind

theorem Placed.swap [DecidableEq Op] (wf : WellFormed P) (h : Placed P src) {i p : Nat} (hi : i < P.count)
    (hp : p < P.count) (hsrc : src i = some (P.destination p)) :
    Placed P (swapped src i (P.destination p) (P.destination i)) := by
  have hkind := h.kind i hi _ hsrc
  refine ⟨fun j hj a ha hc => ?_, fun j hj a ha => ?_, fun j hj a ha => ?_⟩
  · rcases swapped_cases ha with ⟨-, rfl⟩ | ⟨-, rfl⟩ | ⟨ha', -, -⟩
    · rw [wf.dest_variable i hi] at hc
      cases hc
    · rw [wf.dest_variable p hp] at hc
      cases hc
    · exact h.constant j hj a ha' hc
  · rcases swapped_cases ha with ⟨-, rfl⟩ | ⟨-, rfl⟩ | ⟨ha', -, -⟩
    · exact .inl (wf.dest_operand i hi)
    · exact .inl (wf.dest_operand p hp)
    · exact h.place j hj a ha'
  · rcases swapped_cases ha with ⟨ha', rfl⟩ | ⟨ha', rfl⟩ | ⟨ha', -, -⟩
    · rw [← hkind]
      exact h.kind j hj _ ha'
    · rw [hkind]
      exact h.kind j hj _ ha'
    · exact h.kind j hj a ha'

section Steps

variable (wf : WellFormed P)
include wf

/-- Overwriting free words does not change what a performed move has delivered. -/
theorem read_done {j : Nat} (hj : j < P.count) (hnone : src j = none)
    (hframe : ∀ l, ¬Free P src l → m' l = m l) :
    read P m' (P.destination j) = read P m (P.destination j) :=
  read_congr fun l hl => hframe l fun hf => hf.not_mem_done wf hj hnone hl

variable {i : Nat}

/-- Neither does a swap of two destinations that are still to be written. -/
theorem read_done_swap {p j : Nat} (hi : i < P.count) (hp : p < P.count) (hj : j < P.count) (hji : j ≠ i)
    (hjp : j ≠ p) (hnone : src j = none)
    (hframe : ∀ l, ¬Free P src l → l ∉ P.locs (P.destination i) → l ∉ P.locs (P.destination p) → m' l = m l) :
    read P m' (P.destination j) = read P m (P.destination j) := by
  refine read_congr fun l hl => hframe l (fun hf => hf.not_mem_done wf hj hnone hl) ?_ ?_
  · exact wf.disjoint _ _ (wf.dest_operand j hj) (wf.dest_operand i hi)
      (fun e => hji (wf.dest_inj j hj i hi e)) l hl
  · exact wf.disjoint _ _ (wf.dest_operand j hj) (wf.dest_operand p hp)
      (fun e => hjp (wf.dest_inj j hj p hp e)) l hl

variable (h : Holding P m src)
include h

/-- A move to a destination that no other move reads any more. -/
theorem Holding.move (hframe : ∀ l, ¬Free P src l → m' l = m l)
    (hval : P.carries i (read P m' (P.destination i))) : Holding P m' (update src i none) := by
  refine ⟨h.toPlaced.move i, fun j hj a ha hc => ?_, fun j hj hnone => ?_, fun l hs hout => ?_⟩
  · rw [read_congr fun l hl => hframe l fun hf => hf.not_mem_source wf h.toPlaced hj (update_none ha) hl]
    exact h.live j hj a (update_none ha) hc
  · by_cases hji : j = i
    · rw [hji]
      exact hval
    · rw [update_of_ne hji] at hnone
      rw [read_done wf hj hnone hframe]
      exact h.done j hj hnone
  · rw [hframe l, h.frame l hs hout]
    intro hf
    obtain ⟨k, hk, hl⟩ := hf.not_frame hs
    exact hout k hk hl

/-- A move whose value swaps have brought to its destination. -/
theorem Holding.drop (hi : i < P.count) (hsrc : src i = some (P.destination i)) :
    Holding P m (update src i none) :=
  h.move wf (fun _ _ => rfl) (h.live i hi _ hsrc (wf.dest_variable i hi))

/-- The value of a move is put aside. -/
theorem Holding.save (hi : i < P.count) {a c : Op} (ha : src i = some a) (hspare : P.isSpare c)
    (hconst : P.isConstant a = false) (hkind : P.kind c = P.kind a) (hvar : P.isConstant c = false)
    (hframe : ∀ l, ¬Free P src l → m' l = m l) (hval : read P m' c = read P m a) :
    Holding P m' (update src i (some c)) := by
  have hcases : ∀ j b, update src i (some c) j = some b → (j = i ∧ b = c) ∨ (j ≠ i ∧ src j = some b) := by
    grind
  refine ⟨⟨fun j hj b hb hc => ?_, fun j hj b hb => ?_, fun j hj b hb => ?_⟩, fun j hj b hb hc => ?_,
    fun j hj hnone => ?_, fun l hs hout => ?_⟩
  · rcases hcases j b hb with ⟨-, rfl⟩ | ⟨-, hb⟩
    · rw [hvar] at hc
      cases hc
    · exact h.constant j hj b hb hc
  · rcases hcases j b hb with ⟨-, rfl⟩ | ⟨-, hb⟩
    · exact .inr hspare
    · exact h.place j hj b hb
  · rcases hcases j b hb with ⟨rfl, rfl⟩ | ⟨-, hb⟩
    · rw [hkind]
      exact h.kind j hi a ha
    · exact h.kind j hj b hb
  · rcases hcases j b hb with ⟨rfl, rfl⟩ | ⟨-, hb⟩
    · rw [hval]
      exact h.live j hi a ha hconst
    · rw [read_congr fun l hl => hframe l fun hf => hf.not_mem_source wf h.toPlaced hj hb hl]
      exact h.live j hj b hb hc
  · have hji : j ≠ i := by
      grind
    rw [update_of_ne hji] at hnone
    rw [read_done wf hj hnone hframe]
    exact h.done j hj hnone
  · rw [hframe l, h.frame l hs hout]
    intro hf
    obtain ⟨k, hk, hl⟩ := hf.not_frame hs
    exact hout k hk hl

/-- A swap of the source and the destination of a move, where the source is the destination of
another move that is left. -/
theorem Holding.swap [DecidableEq Op] {p : Nat} (hi : i < P.count) (hp : p < P.count)
    (hlive : src p ≠ none) (hsrc : src i = some (P.destination p))
    (hframe : ∀ l, ¬Free P src l → l ∉ P.locs (P.destination i) → l ∉ P.locs (P.destination p) → m' l = m l)
    (hto : read P m' (P.destination i) = read P m (P.destination p))
    (hfrom : read P m' (P.destination p) = read P m (P.destination i)) :
    Holding P m' (swapped src i (P.destination p) (P.destination i)) := by
  refine ⟨h.toPlaced.swap wf hi hp hsrc, fun j hj a ha hc => ?_, fun j hj hnone => ?_, fun l hs hout => ?_⟩
  · rcases swapped_cases ha with ⟨ha', rfl⟩ | ⟨ha', rfl⟩ | ⟨ha', hap, hai⟩
    · rw [hto]
      exact h.live j hj _ ha' (wf.dest_variable p hp)
    · rw [hfrom]
      exact h.live j hj _ ha' (wf.dest_variable i hi)
    · have hkeep : ∀ l ∈ P.locs a, m' l = m l := by
        intro l hl
        refine hframe l (fun hf => hf.not_mem_source wf h.toPlaced hj ha' hl) ?_ ?_
        all_goals
          intro hld
          rcases h.place j hj a ha' with hop | hs
        · exact wf.disjoint _ _ hop (wf.dest_operand i hi) hai l hl hld
        · exact wf.no_scratch _ (wf.dest_operand i hi) l hld (wf.spare_scratch a hs l hl)
        · exact wf.disjoint _ _ hop (wf.dest_operand p hp) hap l hl hld
        · exact wf.no_scratch _ (wf.dest_operand p hp) l hld (wf.spare_scratch a hs l hl)
      rw [read_congr hkeep]
      exact h.live j hj a ha' hc
  · by_cases hji : j = i
    · rw [hji, hto]
      exact h.live i hi _ hsrc (wf.dest_variable p hp)
    · have hnone' : src j = none := by
        grind [swapped]
      have hjp : j ≠ p := by
        rintro rfl
        exact hlive hnone'
      rw [read_done_swap wf hi hp hj hji hjp hnone' hframe]
      exact h.done j hj hnone'
  · rw [hframe l, h.frame l hs hout]
    · intro hf
      obtain ⟨k, hk, hl⟩ := hf.not_frame hs
      exact hout k hk hl
    · exact hout i hi
    · exact hout p hp

end Steps

end W16.ParallelMove
