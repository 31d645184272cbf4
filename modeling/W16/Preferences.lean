import Mathlib.Data.List.Basic

/-!
# Lists in the order of preference

Two lists have the same preferences when the first element with any given property is the same in
both. A later element that is there before makes no difference.
-/
namespace W16.Preferences

open List

variable {α β : Type} {l l' l₁ l₂ : List α}

def Same (l l' : List α) : Prop := ∀ q : α → Bool, l.find? q = l'.find? q

namespace Same

theorem refl (l : List α) : Same l l := fun _ => rfl

theorem symm (h : Same l l') : Same l' l := fun q => (h q).symm

theorem trans {l'' : List α} (h : Same l l') (h' : Same l' l'') : Same l l'' :=
  fun q => (h q).trans (h' q)

theorem of_eq (h : l = l') : Same l l' := h ▸ refl l

theorem mem_iff (h : Same l l') {a : α} : a ∈ l ↔ a ∈ l' := by
  classical
  have hfind : ∀ l : List α, a ∈ l ↔ (l.find? fun b => decide (b = a)).isSome := by
    simp
  rw [hfind, hfind, h]

theorem head? (h : Same l l') : l.head? = l'.head? := by
  have hfind : ∀ l : List α, l.head? = l.find? fun _ => true := by
    intro l
    cases l <;> rfl
  rw [hfind, hfind, h]

theorem append (h : Same l l') (h' : Same l₁ l₂) : Same (l ++ l₁) (l' ++ l₂) := by
  intro q
  rw [find?_append, find?_append, h, h']

theorem map (h : Same l l') (f : α → β) : Same (l.map f) (l'.map f) := by
  intro q
  rw [find?_map, find?_map, h]

/-- The first result is that of the first element that has one. -/
theorem findSome?_eq (l : List α) (f : α → Option β) :
    l.findSome? f = (l.find? fun a => (f a).isSome).bind f := by
  induction l with
  | nil => rfl
  | cons a l ih =>
    grind

theorem flatMap {f g : α → List β} (h : Same l l') (hf : ∀ a ∈ l, Same (f a) (g a)) :
    Same (l.flatMap f) (l'.flatMap g) := by
  intro q
  have hcongr : l.findSome? (fun a => (f a).find? q) = l.findSome? fun a => (g a).find? q := by
    induction l generalizing l' with
    | nil => rfl
    | cons a l ih =>
      rw [findSome?_cons, findSome?_cons, hf a (by simp) q,
        ih (refl l) fun b hb => hf b (by simp [hb])]
  rw [find?_flatMap, find?_flatMap, hcongr, findSome?_eq, findSome?_eq, h]

/-- A list in the place of each of its elements. -/
theorem flatMap_self (l : List α) : Same (l.flatMap fun _ => l) l := by
  intro q
  rw [find?_flatMap]
  cases l with
  | nil => rfl
  | cons a l =>
    grind

end Same

end W16.Preferences
