import Mathlib.Data.Fintype.Card
import Mathlib.Data.List.Basic
import Mathlib.Logic.Relation
import Mathlib.Order.WellFounded
import Mathlib.Data.Finite.Defs
import Mathlib.Order.RelClasses

/-!
# Natural loops of a flow graph

Some nodes of a directed graph are loop headers and each header has latches, the
sources of its back edges. The natural loop of a header is what reaches a latch
without passing through the header. When every loop is reached, and only through
its header, and every cycle has a back edge, the loops are nested or disjoint and
a header precedes its loop.
-/
namespace W16.NaturalLoop

open Relation

variable {α : Type*}

/-- The natural loop of `h`. -/
inductive InLoop (E : α → α → Prop) (latch : α → α → Prop) (h : α) : α → Prop
  | header : InLoop E latch h h
  | latch {e : α} : latch h e → InLoop E latch h e
  | pred {p x : α} : E p x → x ≠ h → InLoop E latch h x → InLoop E latch h p

/-- An edge that is not a back edge. -/
def Forward (E : α → α → Prop) (latch : α → α → Prop) (p s : α) : Prop := E p s ∧ ¬latch s p

/-- A flow graph whose loops are entered only through their headers. Only headers
have latches. -/
structure Reducible (E : α → α → Prop) (start : α) (header : α → Prop) (latch : α → α → Prop) : Prop where
  header_of_latch : ∀ {h e}, latch h e → header h
  edge_of_latch : ∀ {h e}, latch h e → E e h
  entered : ∀ {h b}, header h → InLoop E latch h b → ReflTransGen E start b
  outside : ∀ {h}, header h → ¬InLoop E latch h start
  acyclic : ∀ b, ¬TransGen (Forward E latch) b b

variable {E : α → α → Prop} {start : α} {header : α → Prop} {latch : α → α → Prop}

/-- A path that ends in a loop has a last entry into it, through the header. -/
theorem exists_entry (hout : ∀ {h}, header h → ¬InLoop E latch h start) {h x : α} (hh : header h)
    (hpath : ReflTransGen E start x) (hx : InLoop E latch h x) :
    (∃ q, ¬InLoop E latch h q ∧ E q h ∧ ReflTransGen E start q) ∧
      ReflTransGen (fun a b => E a b ∧ InLoop E latch h a ∧ InLoop E latch h b) h x := by
  induction hpath with
  | refl => exact absurd hx (hout hh)
  | @tail y x hpath hedge ih =>
    by_cases hxh : x = h
    · subst hxh
      by_cases hy : InLoop E latch x y
      · exact ⟨(ih hy).1, .refl⟩
      · exact ⟨⟨y, hy, hedge, hpath⟩, .refl⟩
    · have hy : InLoop E latch h y := .pred hedge hxh hx
      grind

namespace Reducible

variable (R : Reducible E start header latch)

include R

theorem wellFounded [Finite α] : WellFounded (Forward E latch) := by
  have htrans : WellFounded (TransGen (Forward E latch)) := by
    have : Std.Irrefl (TransGen (Forward E latch)) := ⟨R.acyclic⟩
    exact Finite.wellFounded_of_trans_of_irrefl _
  exact Subrelation.wf (fun h => TransGen.single h) htrans

theorem exists_outer_pred {i : α} (hi : header i) :
    ∃ q, ¬InLoop E latch i q ∧ Forward E latch q i ∧ ReflTransGen E start q := by
  obtain ⟨q, hq, hedge, hpath⟩ :=
    (exists_entry R.outside hi (R.entered hi .header) .header).1
  exact ⟨q, hq, ⟨hedge, fun hlatch => hq (.latch hlatch)⟩, hpath⟩

variable {h : α}

theorem inside {x : α} (hh : header h) (hx : InLoop E latch h x) :
    ReflTransGen (fun a b => E a b ∧ InLoop E latch h a ∧ InLoop E latch h b) h x :=
  (exists_entry R.outside hh (R.entered hh hx) hx).2

/-- Every block of a loop other than its header has a forward edge from the loop. -/
theorem exists_forward_pred {x : α} (hh : header h) (hx : InLoop E latch h x) (hne : x ≠ h) :
    ∃ q, InLoop E latch h q ∧ Forward E latch q x := by
  rcases (R.inside hh hx).cases_tail with heq | ⟨q, -, hedge, hq, -⟩
  · exact absurd heq hne
  · by_cases hlatch : latch x q
    · -- the header of an inner loop is also entered from outside of the inner loop
      obtain ⟨q', -, hfwd, -⟩ := R.exists_outer_pred (R.header_of_latch hlatch)
      exact ⟨q', .pred hfwd.1 hne hx, hfwd⟩
    · exact ⟨q, hq, hedge, hlatch⟩

/-- A header precedes its loop. -/
theorem forward_from_header [Finite α] {x : α} (hh : header h) (hx : InLoop E latch h x)
    (hne : x ≠ h) : TransGen (Forward E latch) h x := by
  induction x using R.wellFounded.induction with
  | _ x ih =>
    obtain ⟨q, hq, hfwd⟩ := R.exists_forward_pred hh hx hne
    grind

theorem not_mutual [Finite α] {i : α} (hh : header h) (hi : header i) (hne : i ≠ h)
    (hih : InLoop E latch h i) : ¬InLoop E latch i h := by
  intro hhi
  exact R.acyclic h ((R.forward_from_header hh hih hne).trans (R.forward_from_header hi hhi hne.symm))

/-- The loop of a header inside a loop is inside it. -/
theorem nested [Finite α] {i x : α} (hh : header h) (hi : header i) (hne : i ≠ h)
    (hih : InLoop E latch h i) (hx : InLoop E latch i x) : InLoop E latch h x := by
  induction hx with
  | header => exact hih
  | latch hlatch => exact .pred (R.edge_of_latch hlatch) hne hih
  | pred hedge _ hx ih =>
    refine .pred hedge ?_ ih
    rintro rfl
    exact R.not_mutual hh hi hne hih hx

/-- Loops that meet are nested. -/
theorem comparable {i x : α} (hh : header h) (hxh : InLoop E latch h x)
    (hxi : InLoop E latch i x) : InLoop E latch i h ∨ InLoop E latch h i := by
  have hin := R.inside hh hxh
  clear hxh
  induction hin with
  | refl => exact .inl hxi
  | @tail y x _ hedge ih =>
    by_cases hxi' : x = i
    · subst hxi'
      exact .inr hedge.2.2
    · exact ih (.pred hedge.1 hxi' hxi)

end Reducible

end W16.NaturalLoop
