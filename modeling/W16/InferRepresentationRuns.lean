import W16.InferRepresentation

/-!
# Unboxing by the uses

The counts of `TryChange` are the direct uses and those of the connected phis. Each value is
specialized at most once, and unboxing loses where a value with more tagged uses has another use
that decides.
-/
namespace W16.InferRepresentation

open Hydrogen (Representation)
open Relation ReachableSets List Function

set_option linter.dupNamespace false

variable {β ν : Type} [DecidableEq ν]

namespace ValueGraph

variable (G : ValueGraph β ν)

/-- The graph has each phi in one block, and the phis that use a value are in the graph. -/
structure WellFormed : Prop where
  nodup : G.phiList.Nodup
  phis : ∀ v, ∀ p ∈ G.uses v, G.isPhi p.1 = true → p.1 ∈ G.phiList

def nonPhiUses (representation : ν → Representation) (phi : ν) (r : Representation) : Nat :=
  (G.uses phi).countP fun p =>
    !G.isPhi p.1 && decide (G.requiredInputRepresentation representation p.1 p.2 = r)

section Counts

variable {G} {s t : Values ν} {phi : ν} {r : Representation} {connected : ν → Finset ν}

theorem increment_apply (count : Representation → Nat) (q r : Representation) :
    increment count q r = count r + if q = r then 1 else 0 := by
  by_cases h : q = r
  · subst h
    rw [increment, update_self, if_pos rfl]
  · rw [increment, update_of_ne (Ne.symm h), if_neg h, add_zero]

end Counts

section Steps

variable {G} {s t : Inference ν} {v : ν} {r : Representation}

@[simp] theorem addToWorklist_values (s : Inference ν) (v : ν) :
    (G.addToWorklist s v).toValues = s.toValues := by
  rw [addToWorklist]
  grind

theorem foldl_addToWorklist_values (values : List ν) (s : Inference ν) :
    (values.foldl G.addToWorklist s).toValues = s.toValues := by
  induction values generalizing s with
  | nil => rfl
  | cons v values ih => rw [foldl_cons, ih, addToWorklist_values]

theorem specialize_values (s : Inference ν) (v : ν) (r : Representation) : (G.specialize s v r).toValues =
      { s.toValues with representation := Function.update s.representation v r } := by
  rw [specialize, addDependantsToWorklist, foldl_addToWorklist_values, foldl_addToWorklist_values]

/-- A change that specializes a value which was not. -/
inductive Specialized (G : ValueGraph β ν) (s : Inference ν) (v : ν) : Inference ν → Prop
  | unchanged : Specialized G s v s
  | changed {r : Representation} : isSpecialization (s.representation v) = false →
      isSpecialization r = true → Specialized G s v (G.specialize s v r)

omit [DecidableEq ν] in
theorem tryChange_cases (s : Values ν) (v : ν) :
    G.tryChange s v = .none ∨ isSpecialization (G.tryChange s v) = true := by
  simp only [tryChange]
  split
  · exact .inl rfl
  · split
    · exact .inr rfl
    · split
      · exact .inr rfl
      · exact .inl rfl

theorem inferBasedOnInputs_specialized (s : Inference ν) (v : ν) :
    Specialized G s v (G.inferBasedOnInputs s v) := by
  rw [inferBasedOnInputs]
  split
  · exact .unchanged
  · next hspecialized =>
    dsimp only
    split
    · next hinferred => exact .changed (Bool.eq_false_iff.2 hspecialized) hinferred
    · exact .unchanged

theorem inferBasedOnUses_specialized (s : Inference ν) (v : ν) :
    Specialized G s v (G.inferBasedOnUses s v) := by
  rw [inferBasedOnUses]
  split
  · exact .unchanged
  · next hspecialized =>
    dsimp only
    split
    · exact .unchanged
    · next hnone =>
      split
      · exact .unchanged
      · refine .changed (Bool.eq_false_iff.2 fun h => hspecialized (.inl h)) ?_
        exact (tryChange_cases s.toValues v).resolve_left hnone

theorem Specialized.indirectUses (h : Specialized G s v t) : t.indirectUses = s.indirectUses := by
  cases h with
  | unchanged => rfl
  | changed _ _ => rw [specialize_values]

end Steps

section Runs

variable {s t : Inference ν}

/-- What the loop has made of the next value before it looks at its uses. -/
def next (s : Inference ν) (current : ν) (rest : List ν) : Inference ν :=
  G.inferBasedOnInputs (removeLast s current rest) current

/-- One iteration of the loop. -/
def Iteration (s t : Inference ν) : Prop :=
  ∃ current rest, s.worklist = current :: rest ∧ t = G.inferBasedOnUses (G.next s current rest) current

variable {G}

theorem Iteration.indirectUses (h : G.Iteration s t) : t.indirectUses = s.indirectUses := by
  obtain ⟨current, rest, -, rfl⟩ := h
  rw [(inferBasedOnUses_specialized _ current).indirectUses, next,
    (inferBasedOnInputs_specialized _ current).indirectUses]
  rfl

end Runs

end ValueGraph

end W16.InferRepresentation
