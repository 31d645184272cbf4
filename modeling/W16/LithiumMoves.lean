import W16.GapResolver
import W16.ParallelMove

/-!
# The moves of a gap

The operands of Lithium, `BuildInitialMoveList`, and what a list of moves has to satisfy
for the gap resolver to be asked for a parallel move at all.
-/
namespace W16.Lithium

open MoveOperands List

/-- `LOperand`, with the index of each kind. -/
inductive Operand where
  | unallocated (ignorePolicy : Bool)
  | constant (index : Nat)
  | stackSlot (index : Int)
  | doubleStackSlot (index : Int)
  | register (index : Nat)
  | doubleRegister (index : Nat)
  deriving DecidableEq, Repr

namespace Operand

@[simp]
def index : Operand → Int
  | unallocated _ => 0
  | constant index | register index | doubleRegister index => index
  | stackSlot index | doubleStackSlot index => index

@[simp]
def isRegister : Operand → Bool
  | register _ => true
  | _ => false

@[simp]
def isDoubleRegister : Operand → Bool
  | doubleRegister _ => true
  | _ => false

@[simp]
def isStackSlot : Operand → Bool
  | stackSlot _ => true
  | _ => false

@[simp]
def isDoubleStackSlot : Operand → Bool
  | doubleStackSlot _ => true
  | _ => false

@[simp]
def isConstant : Operand → Bool
  | constant _ => true
  | _ => false

@[simp]
def isUnallocated : Operand → Bool
  | unallocated _ => true
  | _ => false

/-- Operands that hold a tagged or an integer value. -/
@[simp]
def isGeneral : Operand → Bool
  | constant _ | stackSlot _ | register _ => true
  | _ => false

end Operand

/-- The word of the frame that a slot starts at, counted from the frame pointer in pointers:
`ToOperand` and `ToMemOperand`. -/
def frameWord (index : Int) : Int := if 0 ≤ index then -(index + 3) else -(index - 1)

def isIgnored (m : MoveOperands Operand) : Bool := m.destination = some (.unallocated true)

def isRedundant (m : MoveOperands Operand) : Bool :=
  m.isEliminated || m.source = m.destination || isIgnored m

def buildInitialMoveList (moves : List (MoveOperands Operand)) : List (MoveOperands Operand) :=
  moves.filter fun m => !isRedundant m

/-- The list of moves as the resolver indexes it. -/
def moveAt (moves : List (MoveOperands Operand)) (i : Nat) : MoveOperands Operand := moves.getD i eliminated

/-- A move of the list that has to be performed, even if there may be nothing to do for it. -/
def Transfer (moves : List (MoveOperands Operand)) (source destination : Operand) : Prop :=
  ⟨some source, some destination⟩ ∈ moves ∧ destination ≠ .unallocated true

/-- An operand that a move of the list names. -/
def Named (moves : List (MoveOperands Operand)) (a : Operand) : Prop :=
  ∃ source destination, Transfer moves source destination ∧ (a = source ∨ a = destination)

/-- What the caller promises of the moves. The allocator gives each spilled range slots of its own, so
that no word of the frame belongs to two operands. -/
structure Parallel {Loc : Type} (locs : Operand → List Loc) (moves : List (MoveOperands Operand)) : Prop where
  complete : ∀ m ∈ moves, m.source = none ∨ ∃ source destination, m = ⟨some source, some destination⟩
  allocated : ∀ a, Named moves a → a.isUnallocated = false
  variable_destination : ∀ source destination, Transfer moves source destination → destination.isConstant = false
  same_kind : ∀ source destination, Transfer moves source destination → source.isGeneral = destination.isGeneral
  distinct : (moves.filter fun m => !m.isEliminated && !isIgnored m).Pairwise
    fun m m' => m.destination ≠ m'.destination
  disjoint : ∀ a b, Named moves a → Named moves b → a ≠ b → ∀ l ∈ locs a, l ∉ locs b

/-- The sources after a swap, as the resolver renames them. -/
theorem src_swapped (mv : Nat → MoveOperands Operand) (i : Nat) (a b : Operand) :
    GapResolver.src (GapResolver.renameSources (some a) (some b) (Function.update mv i eliminated)) =
      ParallelMove.swapped (GapResolver.src mv) i a b := by
  funext j
  rw [GapResolver.src_renameSources, GapResolver.src_eliminated, ParallelMove.swapped]
  grind

/-- The moves that have to be performed. -/
def transfers (moves : List (MoveOperands Operand)) : List (Operand × Operand) :=
  moves.filterMap fun m =>
    match m with
    | ⟨some source, some destination⟩ => if destination = .unallocated true then none else some (source, destination)
    | _ => none

theorem transfer_iff {moves : List (MoveOperands Operand)} {source destination : Operand} :
    Transfer moves source destination ↔ (source, destination) ∈ transfers moves := by
  constructor
  · intro ⟨hm, hdest⟩
    exact mem_filterMap.2 ⟨_, hm, if_neg hdest⟩
  · intro h
    obtain ⟨m, hm, heq⟩ := mem_filterMap.1 h
    split at heq
    · split at heq
      · cases heq
      · next hdest =>
        cases heq
        exact ⟨hm, hdest⟩
    · cases heq

/-- A concrete list of moves can be checked. -/
theorem Parallel.of_transfers {Loc : Type} {locs : Operand → List Loc} {moves : List (MoveOperands Operand)}
    (hcomplete : ∀ m ∈ moves, m.source = none ∨ m.source.isSome ∧ m.destination.isSome)
    (hkinds : ∀ t ∈ transfers moves, t.1.isUnallocated = false ∧ t.2.isUnallocated = false ∧
      t.2.isConstant = false ∧ t.1.isGeneral = t.2.isGeneral)
    (hdist : (moves.filter fun m => !m.isEliminated && !isIgnored m).Pairwise
      fun m m' => m.destination ≠ m'.destination)
    (hdisj : ∀ a ∈ (transfers moves).flatMap fun t => [t.1, t.2],
      ∀ b ∈ (transfers moves).flatMap fun t => [t.1, t.2], a = b ∨ ∀ l ∈ locs a, l ∉ locs b) : Parallel locs moves where
  complete := by
    intro m hm
    obtain hnone | ⟨hs, hd⟩ := hcomplete m hm
    · exact .inl hnone
    · obtain ⟨source, hsource⟩ := Option.isSome_iff_exists.1 hs
      obtain ⟨destination, hdest⟩ := Option.isSome_iff_exists.1 hd
      exact .inr ⟨source, destination, by rw [← hsource, ← hdest]⟩
  allocated := by
    rintro a ⟨source, destination, ht, rfl | rfl⟩
    · exact (hkinds _ (transfer_iff.1 ht)).1
    · exact (hkinds _ (transfer_iff.1 ht)).2.1
  variable_destination source destination ht := (hkinds _ (transfer_iff.1 ht)).2.2.1
  same_kind source destination ht := (hkinds _ (transfer_iff.1 ht)).2.2.2
  distinct := hdist
  disjoint := by
    rintro a b ⟨s, d, ht, ha⟩ ⟨s', d', ht', hb⟩ hne
    exact (hdisj a (mem_flatMap.2 ⟨_, transfer_iff.1 ht, by simpa using ha⟩) b
      (mem_flatMap.2 ⟨_, transfer_iff.1 ht', by simpa using hb⟩)).resolve_left hne

section Problem

variable {Loc W Op : Type}

def sourceAt (moves : List (MoveOperands Operand)) (i : Nat) : Operand :=
  (moveAt moves i).source.getD (.unallocated true)

def destinationAt (moves : List (MoveOperands Operand)) (i : Nat) : Operand :=
  (moveAt moves i).destination.getD (.unallocated true)

variable {locs : Operand → List Loc} {moves : List (MoveOperands Operand)}

theorem moveAt_eq_getElem {l : List (MoveOperands Operand)} {i : Nat} (hi : i < l.length) : moveAt l i = l[i] := by
  simp [moveAt, hi]

theorem Parallel.moveAt_eq (h : Parallel locs moves) {i : Nat} (hi : i < (buildInitialMoveList moves).length) :
    moveAt (buildInitialMoveList moves) i = ⟨some (sourceAt (buildInitialMoveList moves) i),
      some (destinationAt (buildInitialMoveList moves) i)⟩ ∧
    Transfer moves (sourceAt (buildInitialMoveList moves) i) (destinationAt (buildInitialMoveList moves) i) := by
  have hmem : moveAt (buildInitialMoveList moves) i ∈ buildInitialMoveList moves := by
    rw [moveAt_eq_getElem hi]
    exact getElem_mem hi
  obtain ⟨hin, hred⟩ := mem_filter.1 hmem
  unfold sourceAt destinationAt Transfer
  rcases h.complete _ hin with h0 | ⟨source, destination, he⟩
  · simp [isRedundant, isEliminated, h0] at hred
  simp_all [isRedundant, isIgnored]

/-- A move on the initial list has something to do. -/
theorem Parallel.not_redundant (h : Parallel locs moves) {i : Nat} (hi : i < (buildInitialMoveList moves).length) :
    sourceAt (buildInitialMoveList moves) i ≠ destinationAt (buildInitialMoveList moves) i := by
  intro he
  have hin := (mem_filter.1 (getElem_mem hi)).2
  rw [← moveAt_eq_getElem hi, (h.moveAt_eq hi).1, he] at hin
  simp [isRedundant] at hin

theorem Parallel.destination_inj (h : Parallel locs moves) {i j : Nat}
    (hi : i < (buildInitialMoveList moves).length) (hj : j < (buildInitialMoveList moves).length)
    (he : destinationAt (buildInitialMoveList moves) i = destinationAt (buildInitialMoveList moves) j) : i = j := by
  have hsub : (buildInitialMoveList moves).Pairwise fun m m' => m.destination ≠ m'.destination := by
    refine h.distinct.sublist ?_
    refine monotone_filter_right moves fun m hm => ?_
    simp_all [isRedundant]
  have hget : ∀ k (hk : k < (buildInitialMoveList moves).length),
      ((buildInitialMoveList moves)[k]).destination = some (destinationAt (buildInitialMoveList moves) k) := by
    intro k hk
    rw [← moveAt_eq_getElem hk, (h.moveAt_eq hk).1]
  rw [pairwise_iff_getElem] at hsub
  grind

/-- Every move that has to be performed is on the initial list or has nothing to do. -/
theorem Transfer.initial {source destination : Operand} (h : Transfer moves source destination) :
    source = destination ∨ ∃ i < (buildInitialMoveList moves).length,
      sourceAt (buildInitialMoveList moves) i = source ∧
      destinationAt (buildInitialMoveList moves) i = destination := by
  by_cases he : source = destination
  · exact .inl he
  · have hmem : (⟨some source, some destination⟩ : MoveOperands Operand) ∈ buildInitialMoveList moves := by
      refine mem_filter.2 ⟨h.1, ?_⟩
      simp [isRedundant, isEliminated, isIgnored, he, h.2]
    obtain ⟨i, hi, hget⟩ := getElem_of_mem hmem
    refine .inr ⟨i, hi, ?_, ?_⟩
    · rw [sourceAt, moveAt_eq_getElem hi, hget]
      rfl
    · rw [destinationAt, moveAt_eq_getElem hi, hget]
      rfl

/-- The parallel move that the list stands for, on a store that starts as `m₀`. The resolver's own
places are among the operands of `Op`, Lithium's are embedded by `place`. -/
def problem (place : Operand → Op) (locs : Op → List Loc) (isConstant kind : Op → Bool) (isSpare : Op → Prop)
    (isScratch : Loc → Prop) (delivers : (Loc → W) → Operand → List W → Prop) (moves : List (MoveOperands Operand))
    (m₀ : Loc → W) : ParallelMove.Problem Op Loc W where
  locs := locs
  isConstant := isConstant
  isOperand a := ∃ x, Named moves x ∧ a = place x
  isSpare := isSpare
  isScratch := isScratch
  kind := kind
  count := (buildInitialMoveList moves).length
  source i := place (sourceAt (buildInitialMoveList moves) i)
  destination i := place (destinationAt (buildInitialMoveList moves) i)
  carries i v := delivers m₀ (sourceAt (buildInitialMoveList moves) i) v
  initial := m₀

section

variable {place : Operand → Op} {locs : Op → List Loc} {isConstant kind : Op → Bool} {isSpare : Op → Prop}
  {isScratch : Loc → Prop}
  {delivers : (Loc → W) → Operand → List W → Prop} {m₀ : Loc → W}
  (h : Parallel (fun x => locs (place x)) moves) (hscratch : ∀ x, ∀ l ∈ locs (place x), ¬isScratch l)
  (hdelivers : ∀ x, x.isConstant = false → x.isUnallocated = false → delivers m₀ x ((locs (place x)).map m₀))
include h hscratch hdelivers

theorem Parallel.wellFormed (hplace : ∀ x y, place x = place y → x = y)
    (hconst : ∀ x, isConstant (place x) = x.isConstant) (hkind : ∀ x, kind (place x) = x.isGeneral)
    (hspare : ∀ a, isSpare a → ∀ l ∈ locs a, isScratch l) :
    ParallelMove.WellFormed (problem place locs isConstant kind isSpare isScratch delivers moves m₀) where
  dest_inj i hi j hj he := h.destination_inj hi hj (hplace _ _ he)
  dest_operand i hi := ⟨_, ⟨_, _, (h.moveAt_eq hi).2, .inr rfl⟩, rfl⟩
  dest_variable i hi := (hconst _).trans (h.variable_destination _ _ (h.moveAt_eq hi).2)
  source_operand i hi := ⟨_, ⟨_, _, (h.moveAt_eq hi).2, .inl rfl⟩, rfl⟩
  source_kind i hi := by
    show kind (place _) = kind (place _)
    rw [hkind, hkind]
    exact h.same_kind _ _ (h.moveAt_eq hi).2
  source_carries i hi hc :=
    hdelivers _ ((hconst _).symm.trans hc) (h.allocated _ ⟨_, _, (h.moveAt_eq hi).2, .inl rfl⟩)
  disjoint := by
    rintro _ _ ⟨x, hx, rfl⟩ ⟨y, hy, rfl⟩ hne
    exact h.disjoint x y hx hy fun e => hne (by rw [e])
  no_scratch := by
    rintro _ ⟨x, -, rfl⟩
    exact hscratch x
  spare_scratch := hspare

/-- When all moves are done the list has happened in parallel. -/
theorem Parallel.delivered {m : Loc → W} {src : Nat → Option Op}
    (hold : ParallelMove.Holding (problem place locs isConstant kind isSpare isScratch delivers moves m₀) m src)
    (hdone : ∀ i < (buildInitialMoveList moves).length, src i = none) :
    (∀ source destination, Transfer moves source destination →
      delivers m₀ source ((locs (place destination)).map m)) ∧
    ∀ l, ¬isScratch l → (∀ source destination, Transfer moves source destination → l ∉ locs (place destination)) →
      m l = m₀ l := by
  refine ⟨fun source destination ht => ?_, fun l hs hout => ?_⟩
  · rcases ht.initial with rfl | ⟨i, hi, rfl, rfl⟩
    · -- A move to its own source: no other move writes there.
      have hsame : (locs (place source)).map m = (locs (place source)).map m₀ := by
        refine map_congr_left fun l hl => hold.frame l (hscratch source l hl) fun i hi hli => ?_
        have hti := (h.moveAt_eq hi).2
        by_cases he : destinationAt (buildInitialMoveList moves) i = source
        · have hne : sourceAt (buildInitialMoveList moves) i ≠ source := by
            intro hs
            exact h.not_redundant hi (hs.trans he.symm)
          have hactive : ∀ a, Transfer moves a source → (⟨some a, some source⟩ : MoveOperands Operand) ∈
              moves.filter fun m => !m.isEliminated && !isIgnored m := by
            intro a ha
            refine mem_filter.2 ⟨ha.1, ?_⟩
            simp [isEliminated, isIgnored, ha.2]
          rw [he] at hti
          have : Std.Symm fun m m' : MoveOperands Operand => m.destination ≠ m'.destination := ⟨fun _ _ => Ne.symm⟩
          have hall := h.distinct.forall (hactive _ hti) (hactive _ ht)
          exact hall (by simpa using hne) rfl
        · exact h.disjoint _ _ ⟨_, _, hti, .inr rfl⟩ ⟨_, _, ht, .inl rfl⟩ he l hli hl
      rw [hsame]
      have hnamed : Named moves source := ⟨_, _, ht, .inl rfl⟩
      exact hdelivers source (h.variable_destination _ _ ht) (h.allocated _ hnamed)
    · exact hold.done i hi (hdone i hi)
  · exact hold.frame l hs fun i hi => hout _ _ (h.moveAt_eq hi).2

end

end Problem

end W16.Lithium
