import Mathlib
import W16.ReachableSets

/-!
# Inference of representations

A value that may have any representation gets the one of its inputs, or else one that its uses
ask for. The uses of a phi that is connected to other phis count with theirs.
-/
namespace W16.Hydrogen

inductive Representation where
  | none
  | tagged
  | double
  | integer32
  | external
  deriving DecidableEq, Repr

end W16.Hydrogen

namespace W16.InferRepresentation

open Hydrogen (Representation)
open Relation ReachableSets

variable {β ν : Type} [DecidableEq ν]

/-- `IsSpecialization`. -/
def isSpecialization : Representation → Bool
  | .integer32 => true
  | .double => true
  | _ => false

/-- What the phase reads of the graph. `required` and `inferred` are `RequiredInputRepresentation`
and `InferredRepresentation` of the values that are no phis; they may look at the representations
of all values. -/
structure ValueGraph (β ν : Type) where
  blocks : List β
  phis : β → List ν
  instructions : β → List ν
  isLoopHeader : β → Bool
  block : ν → β
  isPhi : ν → Bool
  isFlexible : ν → Bool
  uses : ν → List (ν × Nat)
  operands : ν → List ν
  required : (ν → Representation) → ν → Nat → Representation
  inferred : (ν → Representation) → ν → Representation

/-- What the phase changes in the values. -/
structure Values (ν : Type) where
  representation : ν → Representation
  isConvertibleToInteger : ν → Bool
  nonPhiUses : ν → Representation → Nat
  indirectUses : ν → Representation → Nat

/-- The values with the worklist, its end first, and `in_worklist_`. -/
structure Inference (ν : Type) extends Values ν where
  worklist : List ν
  inWorklist : ν → Bool

/-- `InferredRepresentation` of a phi. -/
def phiRepresentation (operands : List Representation) : Representation :=
  if .tagged ∈ operands then .tagged
  else if .double ∈ operands then .double
  else if .integer32 ∈ operands then .integer32
  else .none

namespace ValueGraph

variable (G : ValueGraph β ν)

/-- `CollectPhis`. -/
def phiList : List ν := G.blocks.flatMap G.phis

def requiredInputRepresentation (representation : ν → Representation) (v : ν) (index : Nat) : Representation :=
  if G.isPhi v then representation v else G.required representation v index

def inferredRepresentation (representation : ν → Representation) (v : ν) : Representation :=
  if G.isPhi v then phiRepresentation ((G.operands v).map representation)
  else G.inferred representation v

def increment (count : Representation → Nat) (r : Representation) : Representation → Nat :=
  Function.update count r (count r + 1)

/-- The use counts of `TryChange`. -/
def useCount (s : Values ν) (v : ν) : Representation → Nat :=
  (G.uses v).foldl (fun count (use, index) =>
    let rep := G.requiredInputRepresentation s.representation use index
    if rep = .none then count
    else increment (if G.isPhi use then fun r => count r + s.indirectUses use r else count) rep)
    fun _ => 0

/-- The comparison of the tagged uses with the others has no effect in the source: its statement
makes a `Representation::None()` and does not return it. -/
def tryChange (s : Values ν) (v : ν) : Representation :=
  let count := G.useCount s v
  if G.isPhi v ∧ G.isLoopHeader (G.block v) = false ∧ 0 < count .tagged then .none
  else if 0 < count .integer32 ∧ s.isConvertibleToInteger v = true then .integer32
  else if 0 < count .double then .double
  else .none

def addToWorklist (s : Inference ν) (current : ν) : Inference ν :=
  if isSpecialization (s.representation current) then s
  else if G.isFlexible current = false then s
  else if s.inWorklist current then s
  else { s with
    worklist := current :: s.worklist
    inWorklist := Function.update s.inWorklist current true }

def addDependantsToWorklist (s : Inference ν) (value : ν) : Inference ν :=
  (G.operands value).foldl G.addToWorklist (((G.uses value).map Prod.fst).foldl G.addToWorklist s)

/-- `ChangeRepresentation` with `AddDependantsToWorklist`. -/
def specialize (s : Inference ν) (v : ν) (r : Representation) : Inference ν :=
  G.addDependantsToWorklist { s with representation := Function.update s.representation v r } v

def inferBasedOnInputs (s : Inference ν) (current : ν) : Inference ν :=
  if isSpecialization (s.representation current) then s
  else
    let inferred := G.inferredRepresentation s.representation current
    if isSpecialization inferred then G.specialize s current inferred else s

def inferBasedOnUses (s : Inference ν) (value : ν) : Inference ν :=
  if isSpecialization (s.representation value) ∨ G.uses value = [] then s
  else
    let newRep := G.tryChange s.toValues value
    if newRep = .none then s
    else if s.representation value = newRep then s
    else G.specialize s value newRep

/-- `RemoveLast`. -/
def removeLast (s : Inference ν) (current : ν) (rest : List ν) : Inference ν :=
  { s with worklist := rest, inWorklist := Function.update s.inWorklist current false }

end ValueGraph

end W16.InferRepresentation
