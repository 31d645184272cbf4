import Mathlib.Algebra.Order.BigOperators.Group.Finset
import Mathlib.Algebra.Order.Group.Nat
import Mathlib.Data.Fintype.BigOperators
import Mathlib.Logic.Relation

/-!
# Sets of reachable nodes

The set of each node is united with the sets of its successors, edge after edge, until nothing
changes. It then consists of the nodes that can be reached.
-/
namespace W16.ReachableSets

open Relation Function

variable {α : Type*} [DecidableEq α]

/-- The sets after the edge, and whether one has changed before or now. -/
def unite (acc : (α → Finset α) × Bool) (edge : α × α) : (α → Finset α) × Bool :=
  (Function.update acc.1 edge.1 (acc.1 edge.1 ∪ acc.1 edge.2),
    acc.2 || decide (acc.1 edge.1 ∪ acc.1 edge.2 ≠ acc.1 edge.1))

/-- With a bound on the number of passes over the edges. -/
def iterate (edges : List (α × α)) : Nat → (α → Finset α) → Option (α → Finset α)
  | 0, _ => none
  | fuel + 1, sets =>
    match edges.foldl unite (sets, false) with
    | (sets, true) => iterate edges fuel sets
    | (sets, false) => some sets

variable {edges : List (α × α)} {sets : α → Finset α} {changed : Bool} {a b : α}

theorem subset_unite (acc : (α → Finset α) × Bool) (edge : α × α) (a : α) : acc.1 a ⊆ (unite acc edge).1 a := by
  by_cases ha : a = edge.1
  · simp [unite, ha]
  · simp only [unite, update_of_ne ha]
    rfl

theorem subset_foldl (edges : List (α × α)) (acc : (α → Finset α) × Bool) (a : α) :
    acc.1 a ⊆ (edges.foldl unite acc).1 a := by
  induction edges generalizing acc with
  | nil => rfl
  | cons edge edges ih => exact (subset_unite acc edge a).trans (ih (unite acc edge))

/-- Once a set has changed, this is not forgotten. -/
theorem foldl_changed (edges : List (α × α)) (sets : α → Finset α) :
    (edges.foldl unite (sets, true)).2 = true := by
  induction edges generalizing sets with
  | nil => rfl
  | cons edge edges ih =>
    exact ih _

/-- A pass without a change. -/
theorem foldl_unchanged (h : (edges.foldl unite (sets, false)).2 = false) :
    (edges.foldl unite (sets, false)).1 = sets ∧ ∀ e ∈ edges, sets e.2 ⊆ sets e.1 := by
  induction edges with
  | nil => exact ⟨rfl, nofun⟩
  | cons edge edges ih =>
    rw [List.foldl_cons, unite, Bool.false_or] at h ⊢
    by_cases hedge : sets edge.1 ∪ sets edge.2 = sets edge.1
    · simp only [hedge, update_eq_self, ne_eq, not_true_eq_false, decide_false] at h ⊢
      obtain ⟨hsame, hall⟩ := ih h
      grind -linarith
    · simp only [hedge, ne_eq, not_false_eq_true, decide_true, foldl_changed] at h
      exact absurd h nofun

/-- A pass with a change makes a set larger. -/
theorem exists_ssubset (h : (edges.foldl unite (sets, false)).2 = true) :
    ∃ a, sets a ⊂ (edges.foldl unite (sets, false)).1 a := by
  induction edges with
  | nil => exact absurd h nofun
  | cons edge edges ih =>
    rw [List.foldl_cons, unite, Bool.false_or] at h ⊢
    by_cases hedge : sets edge.1 ∪ sets edge.2 = sets edge.1
    · simp only [hedge, update_eq_self, ne_eq, not_true_eq_false, decide_false] at h ⊢
      exact ih h
    · refine ⟨edge.1, lt_of_lt_of_le ?_ (subset_foldl edges _ edge.1)⟩
      grind -linarith

variable {r : α → α → Prop}

/-- The sets have only what can be reached. -/
theorem foldl_sound (hedges : ∀ e ∈ edges, r e.1 e.2)
    {acc : (α → Finset α) × Bool} (h : ∀ a, ∀ b ∈ acc.1 a, ReflTransGen r a b) :
    ∀ a, ∀ b ∈ (edges.foldl unite acc).1 a, ReflTransGen r a b := by
  induction edges generalizing acc with
  | nil => exact h
  | cons edge edges ih =>
    apply ih fun e he => hedges e (List.mem_cons_of_mem edge he)
    intro a b hb
    rw [unite] at hb
    by_cases ha : a = edge.1
    · subst ha
      simp only [update_self, Finset.mem_union] at hb
      rcases hb with hb | hb
      · exact h _ b hb
      · exact (h _ b hb).head (hedges edge List.mem_cons_self)
    grind

/-- The iteration ends with sets that no edge changes. -/
theorem iterate_ends [Fintype α] (hedges : ∀ e ∈ edges, r e.1 e.2)
    (hsound : ∀ a, ∀ b ∈ sets a, ReflTransGen r a b) :
    ∃ n reached, (∀ fuel ≥ n, iterate edges fuel sets = some reached) ∧
      (∀ a, sets a ⊆ reached a) ∧ (∀ a, ∀ b ∈ reached a, ReflTransGen r a b) ∧
      ∀ e ∈ edges, reached e.2 ⊆ reached e.1 := by
  induction hcount : ∑ a, ((sets a)ᶜ).card using Nat.strong_induction_on generalizing sets with
  | _ count ih =>
  cases hpass : edges.foldl unite (sets, false) with
  | mk next changed =>
  have hsound' : ∀ a, ∀ b ∈ (edges.foldl unite (sets, false)).1 a, ReflTransGen r a b :=
    foldl_sound hedges hsound
  have hsub := subset_foldl edges (sets, false)
  rw [hpass] at hsound' hsub
  cases changed with
  | false =>
    have hunchanged : (edges.foldl unite (sets, false)).2 = false := by rw [hpass]
    obtain ⟨hsame, hclos⟩ := foldl_unchanged hunchanged
    rw [hpass] at hsame
    have hsame : next = sets := hsame
    refine ⟨1, next, ?_, hsub, hsound', ?_⟩
    · intro fuel hfuel
      obtain ⟨fuel, rfl⟩ := Nat.exists_eq_add_of_le' hfuel
      rw [iterate, hpass]
    · rw [hsame]
      exact hclos
  | true =>
    have hchanged : (edges.foldl unite (sets, false)).2 = true := by rw [hpass]
    obtain ⟨b, hb⟩ := exists_ssubset hchanged
    rw [hpass] at hb
    have hlt : ∑ a, ((next a)ᶜ).card < ∑ a, ((sets a)ᶜ).card := by
      apply Finset.sum_lt_sum
      · intro a _
        exact Finset.card_le_card (Finset.compl_subset_compl.2 (hsub a))
      · exact ⟨b, Finset.mem_univ b, Finset.card_lt_card (Finset.compl_ssubset_compl.2 hb)⟩
    obtain ⟨n, reached, hreach, hsub', hspec⟩ := ih _ (hcount ▸ hlt) hsound' rfl
    refine ⟨n + 1, reached, ?_, fun a => (hsub a).trans (hsub' a), hspec⟩
    intro fuel hfuel
    obtain ⟨fuel, rfl⟩ := Nat.exists_eq_add_of_le' hfuel
    rw [← add_assoc, iterate, hpass]
    exact hreach _ (Nat.le_add_left n fuel)

/-- A set that has its own node has in the end all that can be reached from it. -/
theorem iterate_spec [Fintype α] (hedges : ∀ a b, (a, b) ∈ edges ↔ r a b)
    (hself : ∀ a b, r a b → b ∈ sets b) (hsound : ∀ a, ∀ b ∈ sets a, ReflTransGen r a b) :
    ∃ n reached, (∀ fuel ≥ n, iterate edges fuel sets = some reached) ∧
      ∀ a ∈ sets a, ∀ b, b ∈ reached a ↔ ReflTransGen r a b := by
  obtain ⟨n, reached, hn, hsub, hsound', hclos⟩ :=
    iterate_ends (fun e he => (hedges e.1 e.2).1 he) hsound
  refine ⟨n, reached, hn, ?_⟩
  intro a ha b
  refine ⟨hsound' a b, fun hpath => ?_⟩
  have hmem : b ∈ reached b := by
    grind
  clear ha
  induction hpath using ReflTransGen.head_induction_on with
  | refl => exact hmem
  | @head a c hstep _ ih => exact hclos (a, c) ((hedges a c).2 hstep) ih

end W16.ReachableSets
