import W16.HydrogenFlow
import W16.ValueMapKills

/-!
# The value map

`HValueMap` is a hash table of instructions. A slot holds one value and a list of
collisions. `present_flags_` has the flags of all values, so that `Kill` can return
at once; it carries the proof of this.
-/
namespace W16.Hydrogen

open List

set_option linter.dupNamespace false

variable {ν ω : Type}

/-- The table, each slot as a list whose first element is stored directly. -/
structure HValueMap (ν ω : Type) where
  array : List (List (HInstruction ν ω))
  presentFlags : Finset GvnFlag
  present : ∀ v ∈ array.flatten, v.dependsOnFlags ⊆ presentFlags

namespace HValueMap

variable (hashcode : HInstruction ν ω → Nat)

/-- A value goes behind the directly stored one. -/
def insertSlot (v : HInstruction ν ω) : List (HInstruction ν ω) → List (HInstruction ν ω)
  | [] => [v]
  | head :: chain => head :: v :: chain

/-- The end of `Insert`, when there is room. -/
def place (array : List (List (HInstruction ν ω))) (v : HInstruction ν ω) : List (List (HInstruction ν ω)) :=
  array.modify (hashcode v % array.length) (insertSlot v)

/-- The collisions of a slot are rehashed before its first value. -/
def rehashSlot (array : List (List (HInstruction ν ω))) :
    List (HInstruction ν ω) → List (List (HInstruction ν ω))
  | [] => array
  | head :: chain => (chain ++ [head]).foldl (place hashcode) array

def resize (array : List (List (HInstruction ν ω))) : List (List (HInstruction ν ω)) :=
  array.foldl (rehashSlot hashcode) (replicate (2 * array.length) [])

def insert (array : List (List (HInstruction ν ω))) (v : HInstruction ν ω) : List (List (HInstruction ν ω)) :=
  if array.flatten.length ≥ array.length / 2 then place hashcode (resize hashcode array) v
  else place hashcode array v

variable {array : List (List (HInstruction ν ω))} {v w : HInstruction ν ω} {flags : Finset GvnFlag}

variable {slot : List (HInstruction ν ω)}

theorem mem_insertSlot (h : w ∈ insertSlot v slot) : w = v ∨ w ∈ slot := by
  cases slot with
  | nil => exact .inl (mem_singleton.1 h)
  | cons head chain =>
    grind [insertSlot]

theorem mem_place {hashcode} (h : w ∈ (place hashcode array v).flatten) : w = v ∨ w ∈ array.flatten := by
  rw [place] at h
  generalize hashcode v % array.length = k at h
  induction array generalizing k with
  | nil =>
    rw [modify_nil] at h
    exact .inr h
  | cons slot array ih =>
    cases k with
    | zero =>
      grind [mem_insertSlot]
    | succ k =>
      grind

theorem mem_foldl_place {hashcode}
    (h : w ∈ (slot.foldl (place hashcode) array).flatten) : w ∈ slot ∨ w ∈ array.flatten := by
  induction slot generalizing array with
  | nil => exact .inr h
  | cons x slot ih =>
    rcases ih h with h | h
    · exact .inl (mem_cons_of_mem x h)
    · rcases mem_place h with rfl | h
      · exact .inl mem_cons_self
      · exact .inr h

theorem mem_resize {hashcode} (h : w ∈ (resize hashcode array).flatten) : w ∈ array.flatten := by
  suffices ∀ (slots new : List (List (HInstruction ν ω))),
      w ∈ (slots.foldl (rehashSlot hashcode) new).flatten → w ∈ slots.flatten ∨ w ∈ new.flatten by
    rcases this _ _ h with h | h
    · exact h
    · simp at h
  intro slots
  induction slots with
  | nil => exact fun new h => .inr h
  | cons slot slots ih =>
    intro new h
    rw [flatten_cons, mem_append]
    rcases ih _ h with h | h
    · exact .inl (.inr h)
    · cases slot with
      | nil => exact .inr h
      | cons head chain =>
        refine (mem_foldl_place h).imp_left fun h => .inl ?_
        grind

theorem mem_insert {hashcode} (h : w ∈ (insert hashcode array v).flatten) : w = v ∨ w ∈ array.flatten := by
  grind [insert, mem_place, mem_resize]

/-- The new table has `kInitialSize` slots. -/
def empty : HValueMap ν ω where
  array := replicate 16 []
  presentFlags := ∅
  present := by simp

def isEmpty (m : HValueMap ν ω) : Bool := m.array.flatten.isEmpty

def add (m : HValueMap ν ω) (v : HInstruction ν ω) : HValueMap ν ω where
  array := insert hashcode m.array v
  presentFlags := m.presentFlags ∪ v.dependsOnFlags
  present := by
    intro w hw
    rcases mem_insert hw with rfl | hw
    · exact Finset.subset_union_right
    · exact (m.present w hw).trans Finset.subset_union_left

/-- What `Kill` keeps of a slot. The list of kept collisions is built backwards. -/
def killSlot (flags : Finset GvnFlag) : List (HInstruction ν ω) → List (HInstruction ν ω)
  | [] => []
  | head :: chain =>
    let kept := (chain.filter fun v => v.dependsOnFlags ∩ flags = ∅).reverse
    if head.dependsOnFlags ∩ flags = ∅ then head :: kept else kept

/-- The flags of all values. -/
def allFlags (values : List (HInstruction ν ω)) : Finset GvnFlag :=
  values.foldr (fun v flags => v.dependsOnFlags ∪ flags) ∅

theorem subset_allFlags {values : List (HInstruction ν ω)} (h : v ∈ values) :
    v.dependsOnFlags ⊆ allFlags values := by
  induction values with
  | nil => exact absurd h not_mem_nil
  | cons w values ih =>
    rcases mem_cons.1 h with rfl | h
    · exact Finset.subset_union_left
    · exact (ih h).trans Finset.subset_union_right

/-- `Kill` drops the values that depend on the flags. -/
def kill (m : HValueMap ν ω) (flags : Finset GvnFlag) : HValueMap ν ω :=
  if m.presentFlags ∩ flags = ∅ then m
  else
    { array := m.array.map (killSlot flags)
      presentFlags := allFlags (m.array.map (killSlot flags)).flatten
      present := fun _ hv => subset_allFlags hv }

/-- `Lookup` in the slot of the value. -/
def lookup (equals : HInstruction ν ω → HInstruction ν ω → Bool) (m : HValueMap ν ω)
    (v : HInstruction ν ω) : Option (HInstruction ν ω) :=
  (m.array.getD (hashcode v % m.array.length) []).find? fun w => equals w v

end HValueMap

end W16.Hydrogen

/-!
## The table of value numbering

Value numbering has a table of slots. Where its size is a power of two, and it never is anything
else, the arrays of `HValueMap` store this table.
-/
namespace W16.ValueMap

open ValueSlots Hydrogen

variable {V ν ω : Type}

/-- Positions as remainders. -/
def remainder (hashcode : V → Nat) : Position V where
  of n v := hashcode v % n
  lt _ v h := Nat.mod_lt (hashcode v) h

section Positions

variable {p q : Position V} {slots new : List (List V)} {v : V}

end Positions

variable {slots : List (List (HInstruction ν ω))} {v : HInstruction ν ω}

end W16.ValueMap
