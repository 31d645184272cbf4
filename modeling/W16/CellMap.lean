import Mathlib.Logic.Function.Basic
import Mathlib.Data.List.Nodup

/-!
# `CellMap`

The cells of a read or write set, as their `from_`/`to_` pairs in insertion
order. `object_map_` keeps the first cell of an object.
-/
namespace W16

open List

abbrev CellMap (α β : Type*) := List (α × β)

namespace CellMap

variable {α β σ : Type*}

/-- The objects that have a cell. -/
def objects (m : CellMap α β) : List α := m.map Prod.fst

def addMapping (m : CellMap α β) (object : α) (redirect : β) : CellMap α β := m ++ [(object, redirect)]

/-- `CommitChanges` copies every `to_` over its `from_`, in insertion order. -/
def commitChanges (copyBlock : σ → α → β → σ) (m : CellMap α β) (heap : σ) : σ :=
  m.foldl (fun heap pair => copyBlock heap pair.1 pair.2) heap

@[simp] theorem objects_nil : objects ([] : CellMap α β) = [] := rfl

@[simp] theorem objects_cons (p : α × β) (m : CellMap α β) : objects (p :: m) = p.1 :: objects m := rfl

@[simp] theorem objects_addMapping (m : CellMap α β) (o : α) (r : β) :
    objects (addMapping m o r) = objects m ++ [o] := by simp [objects, addMapping]

variable [DecidableEq α]

def getMapping (m : CellMap α β) (object : α) : Option β := m.lookup object

/-- Some object of `other` has a cell in `m`. -/
def intersects (m : CellMap α β) {γ : Type*} (other : CellMap α γ) : Bool :=
  other.any fun pair => (getMapping m pair.1).isSome

/-- A write through the cell of an object. -/
def modifyCell (m : CellMap α β) (object : α) (f : β → β) : CellMap α β :=
  m.map fun pair => if pair.1 = object then (pair.1, f pair.2) else pair

theorem getMapping_cons (p : α × β) (m : CellMap α β) (o : α) :
    getMapping (p :: m) o = if p.1 = o then some p.2 else getMapping m o := by
  obtain ⟨o', r⟩ := p
  by_cases h : o' = o
  · simp [getMapping, h]
  · have hne : (o == o') = false := by simpa using Ne.symm h
    simp [getMapping, lookup_cons, h, hne]

@[simp] theorem getMapping_isSome (m : CellMap α β) (o : α) :
    (getMapping m o).isSome = true ↔ o ∈ objects m := by
  induction m with
  | nil => simp [getMapping]
  | cons p m ih =>
    rw [getMapping_cons]
    by_cases h : p.1 = o
    · simp [h]
    · simp [h, ih, Ne.symm h]

theorem getMapping_eq_none (m : CellMap α β) (o : α) : getMapping m o = none ↔ o ∉ objects m := by
  rw [← getMapping_isSome, Option.isSome_iff_ne_none, not_not]

theorem mem_of_getMapping {m : CellMap α β} {o : α} {r : β} (h : getMapping m o = some r) : (o, r) ∈ m := by
  induction m with
  | nil => cases h
  | cons p m ih =>
    grind [getMapping_cons]

theorem getMapping_addMapping (m : CellMap α β) (o k : α) (r : β) :
    getMapping (addMapping m o r) k = (getMapping m k).or (if k = o then some r else none) := by
  simp only [getMapping, addMapping, List.lookup_append]
  grind

theorem intersects_eq_false {γ : Type*} (m : CellMap α β) (other : CellMap α γ) :
    intersects m other = false ↔ ∀ o ∈ objects other, o ∉ objects m := by
  simp [intersects, objects]

@[simp] theorem objects_modifyCell (m : CellMap α β) (o : α) (f : β → β) :
    objects (modifyCell m o f) = objects m := by
  induction m with
  | nil => rfl
  | cons p m ih =>
    grind [modifyCell, objects_cons]

theorem getMapping_modifyCell (m : CellMap α β) (o k : α) (f : β → β) :
    getMapping (modifyCell m o f) k = if k = o then (getMapping m k).map f else getMapping m k := by
  induction m with
  | nil => simp [modifyCell, getMapping]
  | cons p m ih =>
    grind [modifyCell, getMapping_cons]

/-- With one cell for each object, committing installs the cell of every object
that has one. -/
theorem commitChanges_update (m : CellMap α β) (h : α → β) (hm : (objects m).Nodup) (o : α) :
    commitChanges Function.update m h o = (getMapping m o).getD (h o) := by
  induction m generalizing h with
  | nil => rfl
  | cons p m ih =>
    rw [objects_cons, nodup_cons] at hm
    have hrest := ih (Function.update h p.1 p.2) hm.2
    simp only [commitChanges, foldl_cons] at hrest ⊢
    rw [hrest, getMapping_cons]
    by_cases hp : p.1 = o
    · subst hp
      simp [(getMapping_eq_none m p.1).mpr hm.1]
    · simp [hp, Ne.symm hp]

end CellMap

end W16
