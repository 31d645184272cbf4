import Mathlib.Data.List.Perm.Basic
import Mathlib.Data.List.Flatten

/-!
# A hash table as lists of values

Every position of the table has a list of values. What the operations of `HValueMap` do to these
lists, whatever the values are and however a list is stored.
-/
namespace W16.ValueSlots

open List Option

set_option linter.dupNamespace false

/-- The position of a value in a table of a given size. -/
structure Position (V : Type) where
  of : Nat → V → Nat
  lt : ∀ n v, 0 < n → of n v < n

variable {V : Type} (position : Position V)

/-- A value goes behind the directly stored one. -/
def insertSlot (v : V) : List V → List V
  | [] => [v]
  | head :: chain => head :: v :: chain

def place (slots : List (List V)) (v : V) : List (List V) :=
  slots.modify (position.of slots.length v) (insertSlot v)

/-- The collisions of a slot are rehashed before its first value. -/
def rehashSlot (new : List (List V)) : List V → List (List V)
  | [] => new
  | head :: chain => (chain ++ [head]).foldl (place position) new

def resize (slots : List (List V)) (newSize : Nat) : List (List V) :=
  slots.foldl (rehashSlot position) (replicate newSize [])

def insert (slots : List (List V)) (v : V) : List (List V) :=
  if slots.length / 2 ≤ slots.flatten.length then
    place position (resize position slots (slots.length * 2)) v
  else place position slots v

/-- The kept collisions come in reverse, and the first of them takes the place of a dropped first
value. -/
def killSlot (drop : V → Bool) : List V → List V
  | [] => []
  | head :: chain =>
    let kept := (chain.filter fun v => !drop v).reverse
    if drop head then kept else head :: kept

def lookup (equals : V → V → Bool) (slots : List (List V)) (v : V) : Option V :=
  (slots.getD (position.of slots.length v) []).find? fun w => equals w v

/-- Every value is where its hash code says. -/
def Hashed (slots : List (List V)) : Prop :=
  ∀ pos slot, slots[pos]? = some slot → ∀ v ∈ slot, position.of slots.length v = pos

variable {position} {slots new : List (List V)} {v w : V} {drop : V → Bool}

theorem insertSlot_perm (v : V) (slot : List V) : (insertSlot v slot).Perm (v :: slot) := by
  cases slot with
  | nil => exact Perm.refl _
  | cons head chain => exact Perm.swap v head chain

theorem flatten_modify_perm {pos : Nat} (h : pos < slots.length) :
    (slots.modify pos (insertSlot v)).flatten.Perm (v :: slots.flatten) := by
  induction slots generalizing pos with
  | nil => exact absurd h (Nat.not_lt_zero pos)
  | cons slot slots ih =>
    cases pos with
    | zero =>
      exact (insertSlot_perm v slot).append_right _
    | succ pos =>
      have hperm := (ih (Nat.lt_of_succ_lt_succ h)).append_left slot
      exact hperm.trans perm_middle

/-- The number of values after a position stores something else. -/
theorem length_flatten_modify {f : List V → List V} {pos : Nat} {slot : List V} (h : slots[pos]? = some slot) :
    (slots.modify pos f).flatten.length + slot.length = slots.flatten.length + (f slot).length := by
  induction slots generalizing pos with
  | nil => exact nomatch h
  | cons first slots ih =>
    cases pos with
    | zero =>
      grind
    | succ pos =>
      rw [modify_succ_cons, flatten_cons, flatten_cons, length_append, length_append]
      have := ih h
      omega

@[simp] theorem length_place : (place position slots v).length = slots.length :=
  length_modify ..

theorem place_perm (h : 0 < slots.length) : (place position slots v).flatten.Perm (v :: slots.flatten) :=
  flatten_modify_perm (position.lt _ v h)

theorem Hashed.place (h : Hashed position slots) : Hashed position (place position slots v) := by
  intro pos slot hslot w hw
  rw [length_place]
  rw [ValueSlots.place, getElem?_modify] at hslot
  cases hold : slots[pos]? with
  | none =>
    rw [hold] at hslot
    exact nomatch hslot
  | some old =>
    rw [hold] at hslot
    by_cases hpos : position.of slots.length v = pos
    · simp only [hpos, if_true, Option.map_eq_map, map_some, Option.some.injEq] at hslot
      rw [← hslot, (insertSlot_perm v old).mem_iff, mem_cons] at hw
      rcases hw with rfl | hw
      · exact hpos
      · exact h pos old hold w hw
    · simp only [hpos, if_false, Option.map_eq_map, map_some, Option.some.injEq] at hslot
      rw [← hslot] at hw
      exact h pos old hold w hw

@[simp] theorem length_foldl_place (values : List V) :
    (values.foldl (place position) slots).length = slots.length := by
  induction values generalizing slots with
  | nil => rfl
  | cons v values ih => rw [foldl_cons, ih, length_place]

theorem foldl_place_perm (h : 0 < slots.length) (values : List V) :
    (values.foldl (place position) slots).flatten.Perm (values ++ slots.flatten) := by
  induction values generalizing slots with
  | nil => exact Perm.refl _
  | cons v values ih =>
    have hlen : 0 < (place position slots v).length := by rwa [length_place]
    have hplace : (place position slots v).flatten.Perm (v :: slots.flatten) := place_perm h
    exact ((ih hlen).trans (hplace.append_left values)).trans perm_middle

theorem Hashed.foldl_place (h : Hashed position slots) (values : List V) :
    Hashed position (values.foldl (ValueSlots.place position) slots) := by
  induction values generalizing slots with
  | nil => exact h
  | cons v values ih => exact ih h.place

/-- The values of a slot in the order in which they are rehashed. -/
def rehashOrder : List V → List V
  | [] => []
  | head :: chain => chain ++ [head]

theorem rehashOrder_perm (slot : List V) : (rehashOrder slot).Perm slot := by
  cases slot with
  | nil => exact Perm.refl _
  | cons head chain => exact perm_append_singleton head chain

theorem rehashSlot_eq (slot : List V) :
    rehashSlot position new slot = (rehashOrder slot).foldl (place position) new := by
  cases slot with
  | nil => rfl
  | cons head chain => rfl

@[simp] theorem length_foldl_rehashSlot (slots : List (List V)) :
    (slots.foldl (rehashSlot position) new).length = new.length := by
  induction slots generalizing new with
  | nil => rfl
  | cons slot slots ih => rw [foldl_cons, ih, rehashSlot_eq, length_foldl_place]

theorem foldl_rehashSlot_perm (position : Position V) (h : 0 < new.length) (slots : List (List V)) :
    (slots.foldl (rehashSlot position) new).flatten.Perm (slots.flatten ++ new.flatten) := by
  induction slots generalizing new with
  | nil => exact Perm.refl _
  | cons slot slots ih =>
    rw [foldl_cons, rehashSlot_eq, flatten_cons]
    have hlen : 0 < ((rehashOrder slot).foldl (place position) new).length := by
      rwa [length_foldl_place]
    have hslot : ((rehashOrder slot).foldl (place position) new).flatten.Perm (slot ++ new.flatten) :=
      (foldl_place_perm h _).trans ((rehashOrder_perm slot).append_right _)
    have hperm := (ih hlen).trans (hslot.append_left slots.flatten)
    rw [← append_assoc] at hperm
    exact hperm.trans (perm_append_comm.append_right _)

theorem Hashed.foldl_rehashSlot (h : Hashed position new) (slots : List (List V)) :
    Hashed position (slots.foldl (rehashSlot position) new) := by
  induction slots generalizing new with
  | nil => exact h
  | cons slot slots ih =>
    rw [foldl_cons, rehashSlot_eq]
    exact ih (h.foldl_place _)

theorem hashed_replicate (n : Nat) : Hashed position (replicate n []) := by
  intro pos slot hslot v hv
  grind

@[simp] theorem length_resize (slots : List (List V)) (n : Nat) : (resize position slots n).length = n := by
  rw [resize, length_foldl_rehashSlot, length_replicate]

/-- Rehashing neither loses nor duplicates a value. -/
theorem resize_perm (position : Position V) {n : Nat} (h : 0 < n) (slots : List (List V)) :
    (resize position slots n).flatten.Perm slots.flatten := by
  have hlen : 0 < (replicate n ([] : List V)).length := by rwa [length_replicate]
  have hperm := foldl_rehashSlot_perm position hlen slots
  have hnew : (replicate n ([] : List V)).flatten = [] := by simp
  rwa [hnew, append_nil] at hperm

theorem hashed_resize (slots : List (List V)) (n : Nat) : Hashed position (resize position slots n) :=
  (hashed_replicate n).foldl_rehashSlot slots

theorem insert_perm (position : Position V) (h : 0 < slots.length) :
    (insert position slots v).flatten.Perm (v :: slots.flatten) := by
  rw [insert]
  split
  · have hn : 0 < slots.length * 2 := by omega
    have hlen : 0 < (resize position slots (slots.length * 2)).length := by
      rwa [length_resize]
    exact (place_perm hlen).trans ((resize_perm position hn slots).cons v)
  · exact place_perm h

theorem Hashed.insert (h : Hashed position slots) : Hashed position (insert position slots v) := by
  rw [ValueSlots.insert]
  split
  · exact (hashed_resize _ _).place
  · exact h.place

theorem killSlot_perm (slot : List V) : (killSlot drop slot).Perm (slot.filter fun v => !drop v) := by
  cases slot with
  | nil => exact Perm.refl _
  | cons head chain =>
    grind [killSlot, reverse_perm]

theorem kill_perm (drop : V → Bool) (slots : List (List V)) :
    (slots.map (killSlot drop)).flatten.Perm (slots.flatten.filter fun v => !drop v) := by
  induction slots with
  | nil => exact Perm.refl _
  | cons slot slots ih =>
    grind [killSlot_perm]

theorem Hashed.kill (h : Hashed position slots) : Hashed position (slots.map (killSlot drop)) := by
  intro pos slot hslot v hv
  rw [length_map]
  rw [getElem?_map, map_eq_some_iff] at hslot
  obtain ⟨old, hold, rfl⟩ := hslot
  rw [(killSlot_perm old).mem_iff] at hv
  exact h pos old hold v (mem_filter.1 hv).1

/-- A value that `lookup` finds is stored, and equal to the one looked for. -/
theorem of_lookup {equals : V → V → Bool} (h : lookup position equals slots v = some w) :
    w ∈ slots.flatten ∧ equals w v = true := by
  rw [lookup, getD_eq_getElem?_getD] at h
  have hequal := find?_some h
  refine ⟨?_, hequal⟩
  have hmem := mem_of_find?_eq_some h
  cases hslot : slots[position.of slots.length v]? with
  | none =>
    grind
  | some slot =>
    grind [mem_flatten]

/-- Equal values are in the same slot, so that nothing is missed. -/
theorem of_lookup_none {equals : V → V → Bool} (hhashed : Hashed position slots)
    (hequals : ∀ w v, equals w v = true → ∀ n, position.of n w = position.of n v)
    (h : lookup position equals slots v = none) : ∀ w ∈ slots.flatten, equals w v = false := by
  intro w hw
  obtain ⟨slot, hslot, hw⟩ := mem_flatten.1 hw
  obtain ⟨pos, hpos⟩ := getElem?_of_mem hslot
  rw [← Bool.not_eq_true]
  intro heq
  have hsame := (hequals w v heq _).symm.trans (hhashed pos slot hpos w hw)
  rw [lookup, hsame, getD_eq_getElem?_getD, hpos, getD_some, find?_eq_none] at h
  exact h w hw heq

end W16.ValueSlots
