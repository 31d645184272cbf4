import Mathlib.Logic.Relation

/-!
# Dominance

A kind of step of a transition system is inevitable before a state when every path
from the start to the state takes such a step. With the steps that leave a node
this is dominance in a flow graph, with the steps that define a variable it is the
scope of the variable.
-/
namespace W16.Dominance

open Relation

variable {α : Type*} {E : α → α → Prop} {start : α} {C D : α → α → Prop} {a b c d p s : α}

/-- The steps that are not of the kind `D`. -/
def Avoiding (E D : α → α → Prop) (a b : α) : Prop := E a b ∧ ¬D a b

/-- Every path from the start takes a step of the kind `D`. -/
def Inevitable (E : α → α → Prop) (start : α) (D : α → α → Prop) (b : α) : Prop :=
  ¬ReflTransGen (Avoiding E D) start b

theorem not_inevitable_start : ¬Inevitable E start D start := fun h => h .refl

theorem Inevitable.pred (h : Inevitable E start D b) (hedge : E p b) (hD : ¬D p b) :
    Inevitable E start D p := fun hpath => h (hpath.tail ⟨hedge, hD⟩)

theorem Inevitable.of_preds (hb : b ≠ start)
    (h : ∀ p, E p b → D p b ∨ Inevitable E start D p) : Inevitable E start D b := by
  intro hpath
  rcases hpath.cases_tail with heq | ⟨p, hpath, hedge, hD⟩
  · exact hb heq
  · exact (h p hedge).elim hD fun hp => hp hpath

/-- A path to a node has a first visit of it, before which it does not leave the node. -/
theorem exists_first_visit {F : α → α → Prop} (hpath : ReflTransGen F start b) :
    ReflTransGen (Avoiding F fun p _ => p = b) start b := by
  have hcases : ∀ {x}, ReflTransGen F start x → ReflTransGen (Avoiding F fun p _ => p = b) start x ∨
        ReflTransGen (Avoiding F fun p _ => p = b) start b := by
    intro x hpath
    induction hpath with
    | refl => exact .inl .refl
    | @tail p s _ hedge ih =>
      rcases ih with ih | ih
      · by_cases hp : p = b
        · exact .inr (hp ▸ ih)
        · exact .inl (ih.tail ⟨hedge, hp⟩)
      · exact .inr ih
  exact (hcases hpath).elim id id

/-- It is enough to look at the predecessors of a node that are not behind it. -/
theorem Inevitable.of_first_visit (hb : b ≠ start)
    (h : ∀ p, E p b → (D p b ∨ p = b) ∨ Inevitable E start (fun q _ => q = b) p) :
    Inevitable E start D b := by
  intro hpath
  rcases (exists_first_visit hpath).cases_tail with heq | ⟨p, hbefore, ⟨hedge, hD⟩, hpb⟩
  · exact hb heq
  · rcases h p hedge with (hstep | heq) | hinevitable
    · exact hD hstep
    · exact hpb heq
    · exact hinevitable (ReflTransGen.mono (fun _ _ hstep => ⟨hstep.1.1, hstep.2⟩) _ _ hbefore)

/-- What is inevitable before an inevitable step is inevitable. -/
theorem Inevitable.trans (h : Inevitable E start C b)
    (hC : ∀ a a', E a a' → C a a' → Inevitable E start D a) : Inevitable E start D b := by
  intro hpath
  apply h
  clear h
  induction hpath with
  | refl => exact .refl
  | @tail a a' hpath hedge ih =>
    exact ih.tail ⟨hedge.1, fun hstep => hC a a' hedge.1 hstep hpath⟩

/-- What is inevitable before a step, when no step of the kind was taken before. -/
theorem Inevitable.of_again (h : ∀ a a', E a a' → C a a' → Inevitable E start C a ∨ Inevitable E start D a)
    (hedge : E a b) (hC : C a b) : Inevitable E start D a := by
  intro hpath
  have hboth : ReflTransGen (fun a b => Avoiding E C a b ∧ Avoiding E D a b) start a := by
    clear hedge hC
    induction hpath with
    | refl => exact .refl
    | @tail a a' _ hedge ih =>
      refine ih.tail ⟨⟨hedge.1, fun hC => ?_⟩, hedge⟩
      rcases h a a' hedge.1 hC with hagain | hbefore
      · exact hagain (ReflTransGen.mono (fun _ _ h => h.1) _ _ ih)
      · exact hbefore (ReflTransGen.mono (fun _ _ h => h.2) _ _ ih)
  rcases h a b hedge hC with hagain | hbefore
  · exact hagain (ReflTransGen.mono (fun _ _ h => h.1) _ _ hboth)
  · exact hbefore (ReflTransGen.mono (fun _ _ h => h.2) _ _ hboth)

/-- Two kinds of steps are not inevitable before each other. -/
theorem no_mutual_steps (hC : ∀ a a', E a a' → C a a' → Inevitable E start D a)
    (hD : ∀ a a', E a a' → D a a' → Inevitable E start C a)
    (hreach : ReflTransGen E start a) (hedge : E a b) : ¬C a b := by
  intro hstep
  have hboth : ReflTransGen (fun a b => Avoiding E C a b ∧ Avoiding E D a b) start a := by
    clear hstep hedge
    induction hreach with
    | refl => exact .refl
    | @tail a a' _ hedge ih =>
      have hCa : ¬C a a' := fun h =>
        hC a a' hedge h (ReflTransGen.mono (fun _ _ h => h.2) _ _ ih)
      have hDa : ¬D a a' := fun h =>
        hD a a' hedge h (ReflTransGen.mono (fun _ _ h => h.1) _ _ ih)
      exact ih.tail ⟨⟨hedge, hCa⟩, hedge, hDa⟩
  exact hC a b hedge hstep (ReflTransGen.mono (fun _ _ h => h.2) _ _ hboth)

/-- Every path to `b` goes through `d` before it reaches `b`. -/
def StrictlyDominates (E : α → α → Prop) (start d b : α) : Prop :=
  d ≠ b ∧ Inevitable E start (fun p _ => p = d) b

def Dominates (E : α → α → Prop) (start d b : α) : Prop :=
  d = b ∨ StrictlyDominates E start d b

theorem StrictlyDominates.pred (h : StrictlyDominates E start d b) (hedge : E p b) : Dominates E start d p := by
  by_cases hp : d = p
  · exact .inl hp
  · exact .inr ⟨hp, h.2.pred hedge fun heq => hp heq.symm⟩

theorem StrictlyDominates.ne_start (h : StrictlyDominates E start d b) : b ≠ start := by
  rintro rfl
  exact not_inevitable_start h.2

theorem StrictlyDominates.of_preds (hne : d ≠ b) (hb : b ≠ start)
    (h : ∀ p, E p b → Dominates E start d p) : StrictlyDominates E start d b := by
  refine ⟨hne, .of_preds hb fun p hedge => ?_⟩
  rcases h p hedge with rfl | hp
  · exact .inl rfl
  · exact .inr hp.2

theorem start_dominates (E : α → α → Prop) (start b : α) : Dominates E start start b := by
  by_cases hb : start = b
  · exact .inl hb
  · refine .inr ⟨hb, fun hpath => ?_⟩
    rcases hpath.cases_head with heq | ⟨a, hstep, -⟩
    · exact hb heq
    · exact hstep.2 rfl

/-- A path to a block that is strictly dominated goes through the dominator. -/
theorem StrictlyDominates.path {F : α → α → Prop} (h : StrictlyDominates E start d b)
    (hsub : ∀ p s, F p s → E p s) (hpath : ReflTransGen F start b) :
    ReflTransGen F start d ∧ TransGen F d b := by
  have hcases : ReflTransGen (Avoiding E fun p _ => p = d) start b ∨
      ReflTransGen F start d ∧ TransGen F d b := by
    clear h
    induction hpath with
    | refl => exact .inl .refl
    | @tail p s hpath hedge ih =>
      rcases ih with ih | ⟨hd, ih⟩
      · by_cases hpd : p = d
        · rw [← hpd]
          exact .inr ⟨hpath, .single hedge⟩
        · exact .inl (ih.tail ⟨hsub p s hedge, hpd⟩)
      · exact .inr ⟨hd, ih.tail hedge⟩
  exact hcases.resolve_left h.2

/-- Dominance is transitive; that the blocks differ is seen from an order. -/
theorem StrictlyDominates.trans (hab : StrictlyDominates E start a b)
    (hbc : StrictlyDominates E start b c) (hne : a ≠ c) : StrictlyDominates E start a c := by
  refine ⟨hne, hbc.2.trans fun p _ _ hp => ?_⟩
  rw [hp]
  exact hab.2

/-- A strict dominator below all the others. -/
def ImmediatelyDominates (E : α → α → Prop) (start d b : α) : Prop :=
  StrictlyDominates E start d b ∧ ∀ y, StrictlyDominates E start y b → Dominates E start y d

section Tree

variable {parent : α → Option α} {x y : α}

/-- The edges of a forest that is given by the parents. -/
def Up (parent : α → Option α) (a b : α) : Prop := parent a = some b

/-- Two ancestors of a node with the same parent are the same. -/
theorem up_eq_of_parent_eq (hirrefl : ∀ x, ¬TransGen (Up parent) x x)
    (hx : ReflTransGen (Up parent) b x) (hy : ReflTransGen (Up parent) b y)
    (hpar : parent x = parent y) : x = y := by
  have key : ∀ {x y}, ReflTransGen (Up parent) x y → parent x = parent y → x = y := by
    intro x y hxy hpar
    rcases hxy.cases_head with heq | ⟨z, hz, hzy⟩
    · exact heq
    · have hyz : Up parent y z := hpar.symm.trans hz
      exact absurd (TransGen.head' hyz hzy) (hirrefl y)
  have hunique : Relator.RightUnique (Up parent) :=
    fun _ _ _ hb hc => Option.some.inj (hb.symm.trans hc)
  rcases hx.total_of_right_unique hunique hy with h | h
  · exact key h hpar
  · exact (key h hpar.symm).symm

end Tree

end W16.Dominance
