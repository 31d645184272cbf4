import W16.GapResolverArm

/-!
# Soundness of the ARM resolver

While a cycle is broken the saved register is the source of the move that was broken off.
All moves of the traversal are of the kind of its root, so that their temporaries are
never the register that holds the saved value.
-/
namespace W16.Arm

open Lithium MoveOperands GapResolver Function List Option

set_option linter.dupNamespace false

/-- The words of an operand. -/
@[simp]
def locs : Operand → List Loc
  | .register n => [.reg n]
  | .doubleRegister n => [.double n false, .double n true]
  | .stackSlot i => [.word (frameWord i)]
  | .doubleStackSlot i => [.word (frameWord i), .word (frameWord i + 1)]
  | .constant _ | .unallocated _ => []

/-- Where the value of a move can be: in an operand, or in the saved register of its kind. -/
inductive Place where
  | operand (a : Operand)
  | saved (general : Bool)
  deriving DecidableEq, Repr

@[simp]
def Place.locs : Place → List Loc
  | operand a => Arm.locs a
  | saved true => [.saved]
  | saved false => [.savedDouble false, .savedDouble true]

@[simp]
def Place.isConstant : Place → Bool
  | operand a => a.isConstant
  | saved _ => false

@[simp]
def Place.isGeneral : Place → Bool
  | operand a => a.isGeneral
  | saved general => general

def IsScratch (l : Loc) : Prop := l = .saved ∨ l = .ip ∨ ∃ high, l = .savedDouble high

/-- The words hold the value that the source has in a state. -/
def Delivers (constants : Nat → BitVec 32) (m : Machine) (source : Operand) (v : List (BitVec 32)) : Prop :=
  match source with
  | .constant c => v = [constants c]
  | source => v = (locs source).map m

theorem locs_not_scratch (a : Operand) : ∀ l ∈ locs a, ¬IsScratch l := by
  cases a <;> simp [IsScratch]

theorem saved_scratch (general : Bool) : ∀ l ∈ (Place.saved general).locs, IsScratch l := by
  cases general <;> simp [IsScratch]

theorem delivers_variable {constants : Nat → BitVec 32} {m : Machine} {a : Operand} {v : List (BitVec 32)}
    (h : a.isConstant = false) : Delivers constants m a v ↔ v = (locs a).map m := by
  cases a <;> simp_all [Delivers]

theorem delivers_constant {constants : Nat → BitVec 32} {m m' : Machine} {a : Operand} {v : List (BitVec 32)}
    (h : a.isConstant = true) : Delivers constants m a v ↔ Delivers constants m' a v := by
  cases a <;> simp_all [Delivers]

/-! ## The emitted code -/

section Code

variable (address : Int → BitVec 32) (constants : Nat → BitVec 32) {a b : Operand} (m : Machine)

@[simp]
theorem useIp_of_ne (encodable : Bool) (offset : Int) {l : Loc} (h : l ≠ .ip) :
    useIp address encodable offset m l = m l := by
  cases encodable <;> simp [useIp, h]

@[simp]
theorem useIp_encodable (offset : Int) : useIp address true offset m = m := rfl

@[simp]
theorem offset_ne_succ (x : Int) : ¬x = x + 1 := by omega

@[simp]
theorem succ_ne_offset (x : Int) : ¬x + 1 = x := by omega

/-- `EmitMove` brings the value of the source to the destination. -/
theorem moveCode_spec (inCycle : Bool) (hkind : a.isGeneral = b.isGeneral) (ha : a.isUnallocated = false)
    (hb : b.isUnallocated = false) (hvar : b.isConstant = false) (hdisj : ∀ l ∈ locs a, l ∉ locs b) :
    (∀ l, l ∉ locs b → ¬IsScratch l → run address (moveCode constants inCycle a b) m l = m l) ∧
      Delivers constants m a ((locs b).map (run address (moveCode constants inCycle a b) m)) := by
  unfold IsScratch run
  cases a with
  | unallocated p => cases ha
  | constant c => cases b <;> simp_all [moveCode, Delivers, exec]
  | stackSlot i =>
    cases b with
    | stackSlot j =>
      cases inCycle <;> cases hj : offsetIsUint12Encodable (frameWord j) <;> simp_all [moveCode, Delivers, exec]
    | _ => simp_all [moveCode, Delivers, exec]
  | doubleStackSlot i =>
    cases b with
    | doubleStackSlot j => cases inCycle <;> simp_all [moveCode, Delivers, exec]
    | _ => simp_all [moveCode, Delivers, exec]
  | register n => cases b <;> simp_all [moveCode, Delivers, exec]
  | doubleRegister n => cases b <;> simp_all [moveCode, Delivers, exec]

/-- In a cycle the register that holds the saved value is no temporary of a move of the same kind. -/
theorem moveCode_saved (hkind : a.isGeneral = b.isGeneral) (hconst : a.isConstant = false)
    (ha : a.isUnallocated = false) (hb : b.isUnallocated = false) (hvar : b.isConstant = false) :
    ∀ l ∈ (Place.saved b.isGeneral).locs, run address (moveCode constants true a b) m l = m l := by
  unfold run
  cases a with
  | unallocated p => cases ha
  | constant c => cases hconst
  | stackSlot i =>
    cases b with
    | stackSlot j => cases hj : offsetIsUint12Encodable (frameWord j) <;> simp_all [moveCode, exec]
    | _ => simp_all [moveCode, exec]
  | doubleStackSlot i => cases b <;> simp_all [moveCode, exec]
  | register n => cases b <;> simp_all [moveCode, exec]
  | doubleRegister n => cases b <;> simp_all [moveCode, exec]

theorem saveCode_spec (hconst : a.isConstant = false) (ha : a.isUnallocated = false) :
    (∀ l, ¬IsScratch l → run address (saveCode a) m l = m l) ∧
      (Place.saved a.isGeneral).locs.map (run address (saveCode a) m) = (locs a).map m := by
  unfold IsScratch run
  cases a <;> simp_all [saveCode, exec]

theorem restoreCode_spec (hvar : b.isConstant = false) (hb : b.isUnallocated = false) :
    (∀ l, l ∉ locs b → l ≠ .ip → run address (restoreCode b) m l = m l) ∧
      (locs b).map (run address (restoreCode b) m) = (Place.saved b.isGeneral).locs.map m := by
  unfold run
  cases b <;> simp_all [restoreCode, exec]

theorem run_append (code code' : List Instr) :
    run address (code ++ code') m = run address code' (run address code m) :=
  foldl_append

end Code

/-! ## The invariant -/

/-- Cycles are broken and restored in turn, and the saved value is what it was when it is restored. -/
inductive Alternates (address : Int → BitVec 32) : List Event → Prop
  | nil : Alternates address []
  | snoc {history : List Event} {destination : Operand} {code code' : List Instr} : Alternates address history →
      (∀ m, (Place.saved destination.isGeneral).locs.map (run address code' m) =
        (Place.saved destination.isGeneral).locs.map (run address code m)) →
      Alternates address (history ++ [Event.broken destination code] ++ [Event.restored destination code'])

/-- The places of the current sources. -/
def places (mv : Nat → MoveOperands Operand) (i : Nat) : Option Place := (src mv i).map .operand

theorem places_eq_some {mv : Nat → MoveOperands Operand} {i : Nat} {c : Place} (h : places mv i = some c) :
    ∃ a, src mv i = some a ∧ c = .operand a := by
  obtain ⟨a, ha, rfl⟩ := map_eq_some_iff.1 h
  exact ⟨a, ha, rfl⟩

theorem places_eliminated (mv : Nat → MoveOperands Operand) (i : Nat) :
    places (update mv i eliminated) = update (places mv) i none := by
  funext j
  rw [places, src_eliminated, update_apply]
  split <;> rfl

section Invariant

variable (address : Int → BitVec 32) (constants : Nat → BitVec 32) (moves : List (MoveOperands Operand))

/-- The parallel move of the list, from a machine state. -/
abbrev moveProblem (m₀ : Machine) : ParallelMove.Problem Place Loc (BitVec 32) :=
  problem .operand Place.locs Place.isConstant Place.isGeneral (fun c => ∃ general, c = .saved general) IsScratch
    (Delivers constants) moves m₀

abbrev total : Nat := (buildInitialMoveList moves).length

abbrev source₀ : Nat → Operand := sourceAt (buildInitialMoveList moves)

abbrev destination₀ : Nat → Operand := destinationAt (buildInitialMoveList moves)

/-- No cycle is broken. -/
structure Calm (s : State) : Prop where
  inCycle : s.inCycle = false
  original : ∀ i < total moves, ∀ a, src s.moves i = some a → a = source₀ moves i
  holding : ∀ m₀, ParallelMove.Holding (moveProblem constants moves m₀) (run address s.code m₀) (places s.moves)
  history : Alternates address s.history

/-- The cycle of the root is broken at a move whose value is in a saved register. -/
structure Broken (s : State) (b : Nat) : Prop where
  inCycle : s.inCycle = true
  original : ∀ i < total moves, ∀ a, src s.moves i = some a → a = source₀ moves i
  lt : b < total moves
  saved : s.savedDestination = some (destination₀ moves b)
  gone : src s.moves b = none
  root : source₀ moves s.rootIndex = destination₀ moves b
  reader : ∀ j < total moves, src s.moves j = some (destination₀ moves b) → j = s.rootIndex
  holding : ∀ m₀, ParallelMove.Holding (moveProblem constants moves m₀) (run address s.code m₀)
    (update (places s.moves) b (some (.saved (destination₀ moves b).isGeneral)))
  history : ∃ history code, s.history = history ++ [Event.broken (destination₀ moves b) code] ∧
    Alternates address history ∧ ∀ m, (Place.saved (destination₀ moves b).isGeneral).locs.map (run address s.code m) =
      (Place.saved (destination₀ moves b).isGeneral).locs.map (run address code m)

/-- The invariant of the traversal from a root. -/
structure Good (root : Nat) (stack : List Nat) (s : State) : Prop where
  rootIndex : s.rootIndex = root
  last : ∀ r, stack.getLast? = some r → r = root
  phase : Calm address constants moves s ∨ ∃ b, Broken address constants moves s b

variable {address constants moves} (h : Parallel locs moves)
include h

theorem wellFormed (m₀ : Machine) : ParallelMove.WellFormed (moveProblem constants moves m₀) := by
  have h' : Parallel (fun x => (Place.operand x).locs) moves := h
  refine h'.wellFormed (fun x => locs_not_scratch x) (fun _ hc _ => (delivers_variable hc).2 rfl)
    (fun _ _ e => Place.operand.inj e) (fun _ => rfl) (fun _ => rfl) ?_
  rintro _ ⟨general, rfl⟩
  exact saved_scratch general

theorem destination_variable {i : Nat} (hi : i < total moves) :
    (destination₀ moves i).isConstant = false ∧ (destination₀ moves i).isUnallocated = false :=
  ⟨h.variable_destination _ _ (h.moveAt_eq hi).2, h.allocated _ ⟨_, _, (h.moveAt_eq hi).2, .inr rfl⟩⟩

theorem source_spec {i : Nat} (hi : i < total moves) :
    (source₀ moves i).isUnallocated = false ∧ (source₀ moves i).isGeneral = (destination₀ moves i).isGeneral ∧
      ∀ l ∈ locs (source₀ moves i), l ∉ locs (destination₀ moves i) :=
  have ht := (h.moveAt_eq hi).2
  ⟨h.allocated _ ⟨_, _, ht, .inl rfl⟩, h.same_kind _ _ ht,
    h.disjoint _ _ ⟨_, _, ht, .inl rfl⟩ ⟨_, _, ht, .inr rfl⟩ (h.not_redundant hi)⟩

omit h in
theorem places_congr {mv mv' : Nat → MoveOperands Operand} (hs : src mv' = src mv) : places mv' = places mv := by
  funext j
  rw [places, places, hs]

omit h in
/-- A word that is scratch and does not hold the saved value may be overwritten. -/
theorem free_of_scratch {m₀ : Machine} {src' : Nat → Option Place} {l : Loc} (hsc : IsScratch l)
    (hno : ∀ j < total moves, ∀ general, src' j = some (.saved general) → l ∉ (Place.saved general).locs) :
    ParallelMove.Free (moveProblem constants moves m₀) src' l := by
  refine .inr ⟨hsc, fun j hj c hc hlc => ?_⟩
  cases c with
  | operand a => exact locs_not_scratch a l hlc hsc
  | saved general => exact hno j hj general hc hlc

section Step

variable {s : State} {i : Nat} (hi : i < total moves)
include hi

/-- The effect of `EmitMove` between the moves. -/
theorem emit_holding {m₀ m : Machine} {src' : Nat → Option Place} {inCycle : Bool}
    (hold : ParallelMove.Holding (moveProblem constants moves m₀) m src')
    (hsrc : src' i = some (.operand (source₀ moves i)))
    (hno : ∀ j < total moves, src' j ≠ some (.operand (destination₀ moves i)))
    (hscratch : ∀ l, IsScratch l → ¬ParallelMove.Free (moveProblem constants moves m₀) src' l →
      run address (moveCode constants inCycle (source₀ moves i) (destination₀ moves i)) m l = m l) :
    ParallelMove.Holding (moveProblem constants moves m₀)
      (run address (moveCode constants inCycle (source₀ moves i) (destination₀ moves i)) m) (update src' i none) := by
  obtain ⟨hall, hkind, hdisj⟩ := source_spec h hi
  obtain ⟨hvar, hdall⟩ := destination_variable h hi
  have hcode := moveCode_spec address constants m inCycle hkind hall hdall hvar hdisj
  refine hold.move (wellFormed h m₀) (fun l hl => ?_) ?_
  · by_cases hsc : IsScratch l
    · exact hscratch l hsc hl
    · exact hcode.1 l (fun hld => hl (.inl ⟨i, hi, by rw [hsrc]; simp, hld, hno⟩)) hsc
  · cases hc : (source₀ moves i).isConstant with
    | true => exact (delivers_constant hc).1 hcode.2
    | false =>
      have hread := (delivers_variable hc).1 hcode.2
      show Delivers constants m₀ _ (List.map _ (locs (destination₀ moves i)))
      rw [hread]
      exact hold.live i hi _ hsrc hc

variable (hmove : s.moves i = ⟨some (source₀ moves i), some (destination₀ moves i)⟩)
include hmove

omit h hi in
theorem emitMove_eq : emitMove constants s i =
    eliminate { s with code := s.code ++ moveCode constants s.inCycle (source₀ moves i) (destination₀ moves i) } i := by
  unfold emitMove
  rw [hmove]

omit h hi in
theorem places_move : places s.moves i = some (.operand (source₀ moves i)) := by
  rw [places, src, hmove]
  rfl

omit h hi hmove in
/-- Sources stay as they were when a move is eliminated. -/
theorem original_eliminated (hs : ∀ i < total moves, ∀ a, src s.moves i = some a → a = source₀ moves i) :
    ∀ j < total moves, ∀ a, src (update s.moves i eliminated) j = some a → a = source₀ moves j := by
  intro j hj a hja
  rw [src_update_eliminated] at hja
  exact hs j hj a (ParallelMove.update_none hja)

section Move

variable (hfree : ∀ j < total moves, src s.moves j ≠ some (destination₀ moves i))
include hfree

omit h hi hmove in
theorem places_free : ∀ j < total moves, places s.moves j ≠ some (.operand (destination₀ moves i)) := by
  grind [places_eq_some]

theorem Calm.emitMove (hcalm : Calm address constants moves s) :
    Calm address constants moves (emitMove constants s i) := by
  rw [emitMove_eq hmove]
  refine ⟨hcalm.inCycle, original_eliminated hcalm.original, fun m₀ => ?_, hcalm.history⟩
  show ParallelMove.Holding _ (run address (s.code ++ _) m₀) (places (update s.moves i eliminated))
  rw [places_eliminated, run_append]
  refine emit_holding h hi (hcalm.holding m₀) (places_move hmove) (places_free hfree) fun l hsc hl => ?_
  refine absurd (free_of_scratch hsc fun j hj general hb => ?_) hl
  obtain ⟨a, -, he⟩ := places_eq_some hb
  cases he

theorem Broken.emitMove {b : Nat} (hbrk : Broken address constants moves s b)
    (hconst : (source₀ moves i).isConstant = false)
    (hkind : (destination₀ moves i).isGeneral = (destination₀ moves b).isGeneral) :
    Broken address constants moves (emitMove constants s i) b := by
  have hib : i ≠ b := by
    rintro rfl
    have := hbrk.gone
    rw [src, hmove] at this
    cases this
  obtain ⟨hall, hsame, hdisj⟩ := source_spec h hi
  obtain ⟨hvar, hdall⟩ := destination_variable h hi
  have hsaved := fun m => moveCode_saved address constants m hsame hconst hall hdall hvar
  rw [hkind] at hsaved
  rw [emitMove_eq hmove, hbrk.inCycle]
  refine ⟨rfl, original_eliminated hbrk.original, hbrk.lt, hbrk.saved, ?_, hbrk.root, ?_,
    fun m₀ => ?_, ?_⟩
  · show src (update s.moves i eliminated) b = none
    rw [src_eliminated, hbrk.gone, ite_self]
  · intro j hj hb
    have hb : src (update s.moves i eliminated) j = some (destination₀ moves b) := hb
    rw [src_update_eliminated] at hb
    exact hbrk.reader j hj (ParallelMove.update_none hb)
  · show ParallelMove.Holding _ (run address (s.code ++ _) m₀)
      (update (places (update s.moves i eliminated)) b (some (.saved (destination₀ moves b).isGeneral)))
    rw [places_eliminated, run_append, update_comm hib]
    refine emit_holding h hi (hbrk.holding m₀) ?_ (fun j hj => ?_) fun l hsc hl => ?_
    · rw [update_of_ne hib, places_move hmove]
    · by_cases hjb : j = b
      · rw [hjb, update_self]
        simp
      · rw [update_of_ne hjb]
        exact places_free hfree j hj
    · -- The word holds the saved value, or it is free.
      refine hsaved _ l ?_
      by_contra hnot
      refine hl (free_of_scratch hsc fun j hj general hb => ?_)
      by_cases hjb : j = b
      · rw [hjb, update_self, some_inj] at hb
        rw [← hb]
        exact hnot
      · rw [update_of_ne hjb] at hb
        obtain ⟨a, -, he⟩ := places_eq_some hb
        cases he
  · obtain ⟨history, code, hh, halt, hsame⟩ := hbrk.history
    refine ⟨history, code, hh, halt, fun m => ?_⟩
    show List.map (run address (s.code ++ _) m) _ = _
    rw [run_append, map_congr_left (hsaved _), hsame m]

end Move

theorem Calm.broken (hcalm : Calm address constants moves s) (hconst : (source₀ moves i).isConstant = false)
    (hroot : source₀ moves s.rootIndex = destination₀ moves i)
    (hread : ∀ j < total moves, src s.moves j = some (destination₀ moves i) → j = s.rootIndex) :
    Broken address constants moves (breakCycle s i) i := by
  obtain ⟨hall, hkind, -⟩ := source_spec h hi
  have heq : breakCycle s i = eliminate { s with
      inCycle := true
      savedDestination := some (destination₀ moves i)
      code := s.code ++ saveCode (source₀ moves i)
      history := s.history ++ [.broken (destination₀ moves i) (s.code ++ saveCode (source₀ moves i))] } i := by
    unfold breakCycle
    rw [hmove]
  rw [heq]
  refine ⟨rfl, original_eliminated hcalm.original, hi, rfl, ?_, hroot, ?_, fun m₀ => ?_, ?_⟩
  · show src (update s.moves i eliminated) i = none
    rw [src_eliminated, if_pos rfl]
  · intro j hj hb
    have hb : src (update s.moves i eliminated) j = some (destination₀ moves i) := hb
    rw [src_update_eliminated] at hb
    exact hread j hj (ParallelMove.update_none hb)
  · have hcode := saveCode_spec address (run address s.code m₀) hconst hall
    show ParallelMove.Holding _ (run address (s.code ++ _) m₀)
      (update (places (update s.moves i eliminated)) i (some (.saved (destination₀ moves i).isGeneral)))
    rw [places_eliminated, run_append, update_idem, ← hkind]
    refine (hcalm.holding m₀).save (wellFormed h m₀) hi (places_move hmove) ⟨_, rfl⟩ hconst rfl rfl
      (fun l hl => hcode.1 l fun hsc => hl ?_) hcode.2
    refine free_of_scratch hsc fun j hj general hb => ?_
    obtain ⟨a, -, he⟩ := places_eq_some hb
    cases he
  · exact ⟨s.history, s.code ++ saveCode (source₀ moves i), rfl, hcalm.history, fun _ => rfl⟩

end Step

variable {s : State} {stack : List Nat}

theorem Broken.restored {b : Nat} (hbrk : Broken address constants moves s b)
    (hroot : src s.moves s.rootIndex = none) : Calm address constants moves (restoreValue s) := by
  have hb := hbrk.lt
  obtain ⟨hvar, hall⟩ := destination_variable h hb
  have heq : restoreValue s = { s with
      inCycle := false
      savedDestination := none
      code := s.code ++ restoreCode (destination₀ moves b)
      history := s.history ++ [.restored (destination₀ moves b) s.code] } := by
    unfold restoreValue
    rw [hbrk.saved]
  rw [heq]
  have hplaces : places s.moves = update (update (places s.moves) b
      (some (.saved (destination₀ moves b).isGeneral))) b none := by
    rw [update_idem]
    refine (update_eq_self_iff.2 ?_).symm
    rw [places, hbrk.gone]
    rfl
  refine ⟨rfl, hbrk.original, fun m₀ => ?_, ?_⟩
  · have hcode := restoreCode_spec address (run address s.code m₀) hvar hall
    have hold := hbrk.holding m₀
    rw [run_append, hplaces]
    refine hold.move (wellFormed h m₀) (fun l hl => hcode.1 l (fun hld => hl ?_) fun hip => hl ?_) ?_
    · refine .inl ⟨b, hb, by simp, hld, fun j hj hread => ?_⟩
      by_cases hjb : j = b
      · rw [hjb, update_self] at hread
        have he := some_inj.1 hread
        cases he
      · rw [update_of_ne hjb] at hread
        obtain ⟨a, hja, he⟩ := places_eq_some hread
        rw [Place.operand.inj he.symm] at hja
        rw [hbrk.reader j hj hja, hroot] at hja
        cases hja
    · refine free_of_scratch (.inr (.inl hip)) fun j hj general _ => ?_
      subst hip
      cases general <;> simp
    · show Delivers constants m₀ _ (List.map _ (locs (destination₀ moves b)))
      rw [hcode.2]
      exact hold.live b hb _ (update_self ..) rfl
  · obtain ⟨history, code, hh, halt, hsame⟩ := hbrk.history
    rw [hh]
    exact .snoc halt hsame

/-! ## The traversal -/

omit h in
theorem Calm.setDestination (hcalm : Calm address constants moves s) (i : Nat) (o : Option Operand) :
    Calm address constants moves (setDestination s i o) := by
  have hsrc : src (Arm.setDestination s i o).moves = src s.moves := src_setDestination s.moves i o
  refine ⟨hcalm.inCycle, ?_, ?_, hcalm.history⟩
  · rw [hsrc]
    exact hcalm.original
  · rw [places_congr hsrc]
    exact hcalm.holding

omit h in
theorem Broken.setDestination {b : Nat} (hbrk : Broken address constants moves s b) (i : Nat)
    (o : Option Operand) : Broken address constants moves (setDestination s i o) b := by
  have hsrc : src (Arm.setDestination s i o).moves = src s.moves := src_setDestination s.moves i o
  refine ⟨hbrk.inCycle, ?_, hbrk.lt, hbrk.saved, ?_, hbrk.root, ?_, ?_, hbrk.history⟩
  · rw [hsrc]
    exact hbrk.original
  · rw [hsrc]
    exact hbrk.gone
  · rw [hsrc]
    exact hbrk.reader
  · rw [places_congr hsrc]
    exact hbrk.holding

omit h in
theorem Good.setDestination {root : Nat}
    (hgood : Good address constants moves root stack s) (i : Nat) (o : Option Operand) :
    Good address constants moves root stack (setDestination s i o) := by
  refine ⟨hgood.rootIndex, hgood.last, ?_⟩
  rcases hgood.phase with hcalm | ⟨b, hbrk⟩
  · exact .inl (hcalm.setDestination i o)
  · exact .inr ⟨b, hbrk.setDestination i o⟩

omit h in
theorem Good.original {root : Nat} (hgood : Good address constants moves root stack s) :
    ∀ i < total moves, ∀ a, src s.moves i = some a → a = source₀ moves i := by
  rcases hgood.phase with hcalm | ⟨b, hbrk⟩
  · exact hcalm.original
  · exact hbrk.original

/-- The pending moves are all of the kind of the root. -/
theorem stack_kind {mv : Nat → MoveOperands Operand} {r : Nat}
    (hchain : stack.IsChain fun c p => src mv c = some (destination₀ moves p) ∧ source₀ moves c = destination₀ moves p)
    (hlt : ∀ j ∈ stack, j < total moves) (hr : stack.getLast? = some r) :
    ∀ j ∈ stack, (destination₀ moves j).isGeneral = (destination₀ moves r).isGeneral := by
  induction stack with
  | nil => simp
  | cons x rest ih =>
    cases rest with
    | nil =>
      obtain rfl : x = r := by simpa using hr
      simp
    | cons y rest =>
      obtain ⟨⟨-, hxy⟩, hrest⟩ := isChain_cons_cons.1 hchain
      have hall := ih hrest (fun j hj => hlt j (mem_cons_of_mem _ hj)) (by simpa using hr)
      intro j hj
      rcases mem_cons.1 hj with rfl | hj
      · rw [← (source_spec h (hlt j (by simp))).2.1, hxy]
        exact hall y (by simp)
      · exact hall j hj

section Finish

variable {root i : Nat} {stack : List Nat} {s : State}
  (hgood : Good address constants moves root (i :: stack) s)
  (hgraph : Graph (total moves) (source₀ moves) (destination₀ moves) s.moves (i :: stack))
include hgood

omit h in
/-- The root of the traversal is at the bottom of the stack. -/
theorem Good.last_eq : (i :: stack).getLast? = some root := by
  rw [getLast?_cons, hgood.last _ getLast?_cons]

omit h in
theorem Good.pop {t : State} (hroot : t.rootIndex = s.rootIndex)
    (hphase : Calm address constants moves t ∨ ∃ b, Broken address constants moves t b) :
    Good address constants moves root stack t :=
  ⟨hroot.trans hgood.rootIndex, fun _ hr => hgood.last _ (Graph.root_tail hr), hphase⟩

include hgraph

omit h in
theorem Good.src_eq : src s.moves i = some (source₀ moves i) := by
  obtain ⟨a, ha⟩ := ne_none_iff_exists'.1 (hgraph.live i (by simp))
  rw [ha, hgood.original i (hgraph.lt i (by simp)) a ha]

omit h in
theorem Good.move_eq : (Arm.setDestination s i (some (destination₀ moves i))).moves i =
    ⟨some (source₀ moves i), some (destination₀ moves i)⟩ := by
  have hsrc := hgood.src_eq hgraph
  unfold src at hsrc
  show update s.moves i _ i = _
  rw [update_self, hsrc]

/-- While the cycle of the root is broken, the pending moves are of the kind of the saved value and
none of them is from a constant. -/
theorem Good.like_saved {b : Nat} (hbrk : Broken address constants moves s b) :
    (source₀ moves i).isConstant = false ∧
      (destination₀ moves i).isGeneral = (destination₀ moves b).isGeneral := by
  have hlast := hgood.last_eq
  have hroot := hbrk.root
  rw [hgood.rootIndex] at hroot
  constructor
  · cases stack with
    | nil =>
      obtain rfl : i = root := by simpa using hlast
      rw [hroot]
      exact (destination_variable h hbrk.lt).1
    | cons p rest =>
      rw [(hgraph.reads (p := p) rfl).2]
      exact (destination_variable h (hgraph.lt p (by simp))).1
  · rw [stack_kind h hgraph.chain hgraph.lt hlast i (by simp), ← hroot]
    exact (source_spec h (hgraph.lt root (mem_of_getLast? hlast))).2.1.symm

/-- A move that nothing blocks is emitted. -/
theorem Good.emitMove (hfree : ∀ j < total moves, src s.moves j ≠ some (destination₀ moves i)) :
    Good address constants moves root stack
      (emitMove constants (Arm.setDestination s i (some (destination₀ moves i))) i) := by
  have hi := hgraph.lt i (by simp)
  have hmove := hgood.move_eq hgraph
  have hfree' : ∀ j < total moves, src (Arm.setDestination s i (some (destination₀ moves i))).moves j ≠
      some (destination₀ moves i) := by
    rw [show src (Arm.setDestination s i _).moves = src s.moves from src_setDestination s.moves i _]
    exact hfree
  refine hgood.pop (by rw [emitMove_eq hmove]; rfl) ?_
  rcases hgood.phase with hcalm | ⟨b, hbrk⟩
  · exact .inl ((hcalm.setDestination i _).emitMove h hi hmove hfree')
  · obtain ⟨hconst, hkind⟩ := hgood.like_saved h hgraph hbrk
    exact .inr ⟨b, (hbrk.setDestination i _).emitMove h hi hmove hfree' hconst hkind⟩

/-- The cycle of the root is broken at the move that the root blocks: it was not broken before, as the
root reads one destination only. -/
theorem Good.breakCycle (hroot : src s.moves root = some (destination₀ moves i))
    (hblockers : ∀ j < total moves, j ∉ i :: stack → src s.moves j ≠ some (destination₀ moves i)) :
    Good address constants moves root stack
      (breakCycle (Arm.setDestination s i (some (destination₀ moves i))) i) := by
  have hi := hgraph.lt i (by simp)
  have hlast := hgood.last_eq
  have hmove := hgood.move_eq hgraph
  have hrootlt := hgraph.lt root (mem_of_getLast? hlast)
  have hsource := hgood.original root hrootlt _ hroot
  have hcalm : Calm address constants moves s := by
    rcases hgood.phase with hcalm | ⟨b, hbrk⟩
    · exact hcalm
    · have hb := hbrk.root
      rw [hgood.rootIndex, ← hsource] at hb
      obtain rfl := h.destination_inj hi hbrk.lt hb
      exact absurd hbrk.gone (hgraph.live i (by simp))
  have hself : src s.moves i ≠ some (destination₀ moves i) := by
    rw [hgood.src_eq hgraph]
    exact fun e => h.not_redundant hi (some.inj e)
  have hsrc : src (Arm.setDestination s i (some (destination₀ moves i))).moves = src s.moves :=
    src_setDestination s.moves i _
  have hconst : (source₀ moves i).isConstant = false := by
    cases stack with
    | nil =>
      simp_all
    | cons p rest =>
      rw [(hgraph.reads (p := p) rfl).2]
      exact (destination_variable h (hgraph.lt p (by simp))).1
  refine hgood.pop ?_ (.inr ⟨i, (hcalm.setDestination i _).broken h hi hmove hconst ?_ fun j hj hb => ?_⟩)
  · unfold Arm.breakCycle
    rw [hmove]
    rfl
  · show source₀ moves s.rootIndex = _
    rw [hgood.rootIndex, hsource]
  · rw [hsrc] at hb
    show j = s.rootIndex
    rw [hgood.rootIndex]
    have hin : j ∈ i :: stack := by
      by_contra hn
      exact hblockers j hj hn hb
    rcases mem_cons.1 hin with rfl | hin
    · exact absurd hb hself
    · have hj' := Graph.root_tail (i := i) (hgraph.blocker_root
        (fun i hi j hj => h.destination_inj hi hj) hin hb)
      rw [hlast, some_inj] at hj'
      exact hj'.symm

end Finish

omit h in
theorem moves_emitMove (s : State) (i : Nat) : (emitMove constants s i).moves = update s.moves i eliminated := by
  unfold emitMove
  split <;> rfl

omit h in
theorem moves_breakCycle (s : State) (i : Nat) : (breakCycle s i).moves = update s.moves i eliminated := by
  unfold breakCycle
  split <;> rfl

omit h in
theorem moves_finish (s : State) (i : Nat) (o : Option Operand) :
    (finish constants (setDestination s i o) i).moves = update s.moves i eliminated := by
  have hs : update (setDestination s i o).moves i eliminated = update s.moves i eliminated := update_idem ..
  unfold finish
  split
  · rw [moves_breakCycle, hs]
  · rw [moves_emitMove, hs]

theorem lawful (root : Nat) : Lawful (port constants) (total moves) (source₀ moves) (destination₀ moves)
    (Good address constants moves root) where
  moves_setDestination _ _ _ := rfl
  good_push s i p stack hgood _ _ := by
    have hgood' := hgood.setDestination i none
    exact ⟨hgood'.rootIndex, fun r hr => hgood.last r (by simpa using hr), hgood'.phase⟩
  finish := by
    intro s i stack hgraph hgood hblockers
    have hlast := hgood.last_eq
    have hmoves : (port constants).moves ((port constants).finish ((port constants).setDestination s i
        (some (destination₀ moves i))) i) = update s.moves i eliminated := moves_finish s i _
    have hsrc : src (setDestination s i (some (destination₀ moves i))).moves = src s.moves :=
      src_setDestination s.moves i _
    rw [hmoves]
    refine ⟨hgraph.pop fun r hr => .inr ?_, by rw [src_eliminated, if_pos rfl], .pop, ?_⟩
    · -- No source is ever changed.
      have hr' := mem_cons_of_mem i (mem_of_getLast? hr)
      obtain ⟨a, ha⟩ := ne_none_iff_exists'.1 (hgraph.live r hr')
      rw [ha, hgood.original r (hgraph.lt r hr') a ha]
    · show Good address constants moves root stack (finish constants (setDestination s i _) i)
      have hdest : ((setDestination s i (some (destination₀ moves i))).moves i).destination =
          some (destination₀ moves i) := by rw [hgood.move_eq hgraph]
      have hblocks : ((setDestination s i (some (destination₀ moves i))).moves
          (setDestination s i (some (destination₀ moves i))).rootIndex).source = src s.moves root := by
        rw [← hsrc, ← hgood.rootIndex]
        rfl
      unfold finish
      rw [hdest]
      split_ifs with hroot <;> rw [blocks_iff, hblocks] at hroot
      · exact hgood.breakCycle h hgraph hroot hblockers
      · refine hgood.emitMove h hgraph fun j hj hb => ?_
        by_cases hin : j ∈ i :: stack
        · rcases mem_cons.1 hin with rfl | hin
          · rw [hgood.src_eq hgraph] at hb
            exact h.not_redundant hj (some.inj hb)
          · have hj' := Graph.root_tail (i := i) (hgraph.blocker_root
              (fun i hi j hj => h.destination_inj hi hj) hin hb)
            simp_all
        · exact hblockers j hj hin hb

/-! ## The loops of `Resolve` -/

/-- One round of the first loop: the move is performed, and the value that a broken cycle has saved is
restored. -/
theorem performRoot_spec {i : Nat}
    (hgraph : Graph (total moves) (source₀ moves) (destination₀ moves) s.moves [])
    (hcalm : Calm address constants moves s) (hi : i < total moves) (hlive : src s.moves i ≠ none)
    (hbelow : ∀ j < i, Settled (total moves) (destination₀ moves) s.moves j) :
    ∃ t, performRoot constants (total moves) s i = some t ∧
      Graph (total moves) (source₀ moves) (destination₀ moves) t.moves [] ∧ src t.moves i = none ∧
      Progress (total moves) (destination₀ moves) [] s.moves t.moves ∧ Calm address constants moves t := by
  have hcalm' : Calm address constants moves { s with rootIndex := i } :=
    ⟨hcalm.inCycle, hcalm.original, hcalm.holding, hcalm.history⟩
  have hgood : Good address constants moves i [i] (setDestination { s with rootIndex := i } i none) :=
    ⟨rfl, fun r hr => by simpa using hr.symm, .inl (hcalm'.setDestination i none)⟩
  obtain ⟨u, hu, hgu, hgone, hprog, hgoodu⟩ := (lawful h i).performMove_spec
    (fun i hi j hj => h.destination_inj hi hj) (total moves) { s with rootIndex := i } i [] hgraph hgood hi
    (by simp) hlive (fun p hp => by cases hp) (fun _ => hbelow) (by simp)
  have hgone : src u.moves i = none := hgone
  rcases hgoodu.phase with hc | ⟨b, hbrk⟩
  · refine ⟨u, ?_, hgu, hgone, hprog, hc⟩
    unfold performRoot
    rw [hu]
    simp [hc.inCycle]
  · have hmoves : (restoreValue u).moves = u.moves := by
      unfold restoreValue
      split <;> rfl
    refine ⟨restoreValue u, ?_, ?_⟩
    · unfold performRoot
      rw [hu]
      simp [hbrk.inCycle]
    · rw [hmoves]
      exact ⟨hgu, hgone, hprog, hbrk.restored h (by rw [hgoodu.rootIndex, hgone])⟩

/-- `Resolve` ends with every move performed and no value left in a saved register. -/
theorem resolve_spec (hcalm : Calm address constants moves
    { s with moves := moveAt (buildInitialMoveList moves) }) :
    ∃ t, resolve constants s moves = some t ∧ Calm address constants moves t ∧
      ∀ j < total moves, src t.moves j = none := by
  have hconst : ∀ i < total moves, (destination₀ moves i).isConstant = false :=
    fun i hi => (destination_variable h hi).1
  have hperf : ∀ u i a, Graph (total moves) (source₀ moves) (destination₀ moves) ((port constants).moves u) [] →
      Calm address constants moves u → i < total moves → src ((port constants).moves u) i = some a →
      Operand.isConstant a = false →
      (∀ j < i, Settled (total moves) (destination₀ moves) ((port constants).moves u) j) →
      ∃ t, performRoot constants (total moves) u i = some t ∧
        Graph (total moves) (source₀ moves) (destination₀ moves) ((port constants).moves t) [] ∧
        src ((port constants).moves t) i = none ∧
        Progress (total moves) (destination₀ moves) [] ((port constants).moves u) ((port constants).moves t) ∧
        Calm address constants moves t := by
    intro u i a hg hc hi ha _ hbelow
    have hlive : src u.moves i ≠ none := by
      rw [show src u.moves i = some a from ha]
      simp
    exact performRoot_spec h hg hc hi hlive hbelow
  have hgraph : Graph (total moves) (source₀ moves) (destination₀ moves)
      ((port constants).moves { s with moves := moveAt (buildInitialMoveList moves) }) [] :=
    .init fun i hi => (h.moveAt_eq hi).1
  obtain ⟨t, ht, hgt, hct, hleft⟩ := performMoves_spec hconst hperf hgraph hcalm
  refine ⟨emitConstants (port constants) (emitMove constants) (total moves) t, ?_, ?_⟩
  · unfold resolve
    simp only [ht]
    rfl
  · refine emitConstants_spec hconst (fun u i => moves_emitMove u i) (fun u i a hc hi hmove _ hfree => ?_) hgt hct
      hleft
    have hmove : u.moves i = ⟨some a, some (destination₀ moves i)⟩ := hmove
    obtain rfl := hc.original i hi a (by rw [src, hmove])
    exact hc.emitMove h hi hmove hfree

end Invariant

/-- `Resolve` ends, and its code moves the value of each source to its destination, whatever the
machine holds at the start. Everything else but the scratch registers stays as it was. A cycle is
broken only after the value of the one before is restored, and what is restored is what was saved. -/
theorem resolve_by_saving (address : Int → BitVec 32) (constants : Nat → BitVec 32) (s : State)
    (moves : List (MoveOperands Operand)) (h : Parallel locs moves) (hcycle : s.inCycle = false)
    (hcode : s.code = []) (hhistory : s.history = []) :
    ∃ t, resolve constants s moves = some t ∧ t.inCycle = false ∧ Alternates address t.history ∧ ∀ m₀,
      (∀ source destination, Transfer moves source destination →
        Delivers constants m₀ source ((locs destination).map (run address t.code m₀))) ∧
      ∀ l, ¬IsScratch l → (∀ source destination, Transfer moves source destination → l ∉ locs destination) →
        run address t.code m₀ l = m₀ l := by
  have hcalm : Calm address constants moves { s with moves := moveAt (buildInitialMoveList moves) } := by
    refine ⟨hcycle, fun i hi a ha => ?_, fun m₀ => ?_, ?_⟩
    · have ha : src (moveAt (buildInitialMoveList moves)) i = some a := ha
      rw [src, (h.moveAt_eq hi).1] at ha
      exact (some.inj ha).symm
    · show ParallelMove.Holding _ (run address s.code m₀) (places (moveAt (buildInitialMoveList moves)))
      rw [hcode]
      refine .init (wellFormed h m₀) fun i hi => ?_
      rw [places, src, (h.moveAt_eq hi).1]
      rfl
    · rw [hhistory]
      exact .nil
  obtain ⟨t, ht, hct, hdone⟩ := resolve_spec h hcalm
  refine ⟨t, ht, hct.inCycle, hct.history, fun m₀ => ?_⟩
  have h' : Parallel (fun x => (Place.operand x).locs) moves := h
  exact h'.delivered (fun x => locs_not_scratch x) (fun _ hc _ => (delivers_variable hc).2 rfl) (hct.holding m₀)
    fun j hj => by rw [places, hdone j hj]; rfl

/-- Two slots far from the frame pointer change places, and a register is loaded. -/
theorem resolve_by_saving_slots : ∃ t, resolve (fun _ => 7) ⟨fun _ => eliminated, 0, false, none, [], []⟩
      [⟨some (.stackSlot 0), some (.stackSlot 2000)⟩, ⟨some (.stackSlot 2000), some (.stackSlot 0)⟩,
        ⟨some (.constant 3), some (.register 1)⟩] = some t ∧
    ∀ m₀, run (fun _ => 0) t.code m₀ (.word (-3)) = m₀ (.word (-2003)) := by
  obtain ⟨t, ht, -, -, hrun⟩ := resolve_by_saving (fun _ => 0) (fun _ => 7)
    ⟨fun _ => eliminated, 0, false, none, [], []⟩
    [⟨some (.stackSlot 0), some (.stackSlot 2000)⟩, ⟨some (.stackSlot 2000), some (.stackSlot 0)⟩,
      ⟨some (.constant 3), some (.register 1)⟩]
    (.of_transfers (by decide) (by decide) (by decide) (by decide)) rfl rfl rfl
  refine ⟨t, ht, fun m₀ => ?_⟩
  have hdel := (hrun m₀).1 (.stackSlot 2000) (.stackSlot 0) ⟨by simp, by simp⟩
  exact (List.cons.inj ((delivers_variable rfl).1 hdel)).1

end W16.Arm
