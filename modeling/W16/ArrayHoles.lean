import Mathlib.Data.Int.Order.Basic
import Mathlib.Data.List.Basic
import Mathlib.Data.List.Perm.Basic

/-!
# Removing the holes of an array

`SafeRemoveArrayHoles` moves defined elements from the end into holes and undefined elements, and
writes the undefined elements and the holes behind them. No element is on the prototype chain.
-/
namespace W16.ArrayHoles

open List

/-- What an object has at an index. -/
inductive Slot (α : Type) where
  | hole
  | undef
  | value (a : α)
  deriving DecidableEq, Repr

namespace Slot

variable {α : Type}

def isUndefined : Slot α → Bool
  | value _ => false
  | _ => true

def hasOwn : Slot α → Bool
  | hole => false
  | _ => true

/-- What is read from a slot, as it is written to another one. -/
def read : Slot α → Slot α
  | hole => undef
  | slot => slot

def value? : Slot α → Option α
  | value a => some a
  | _ => none

def isOwnUndefined : Slot α → Bool
  | undef => true
  | _ => false

end Slot

abbrev Obj (α : Type) := Nat → Slot α

variable {α : Type}

def Obj.set (obj : Obj α) (i : Nat) (slot : Slot α) : Obj α :=
  fun j => if j = i then slot else obj j

/-- The first inner loop, with a bound on the number of steps. -/
def findUndefined (obj : Obj α) (lastDefined : Nat) : Nat → Nat → Option Nat
  | 0, _ => none
  | fuel + 1, firstUndefined =>
    if firstUndefined < lastDefined && !(obj firstUndefined).isUndefined then
      findUndefined obj lastDefined fuel (firstUndefined + 1)
    else some firstUndefined

/-- The second inner loop: the last defined element, and the holes so far. -/
def findLastDefined (obj : Obj α) (firstUndefined : Nat) : Nat → Nat → Nat → Option (Nat × Nat)
  | 0, _, _ => none
  | fuel + 1, lastDefined, numHoles =>
    if firstUndefined < lastDefined && (obj lastDefined).isUndefined then
      findLastDefined obj firstUndefined fuel (lastDefined - 1)
        (if !(obj lastDefined).hasOwn then numHoles + 1 else numHoles)
    else some (lastDefined, numHoles)

/-- The outer loop: the object, `first_undefined` and `num_holes`. -/
def fillLoop (length : Nat) : Nat → Obj α → Nat → Nat → Nat → Option (Obj α × Nat × Nat)
  | 0, _, _, _, _ => none
  | fuel + 1, obj, firstUndefined, lastDefined, numHoles =>
    if firstUndefined < lastDefined then do
      let firstUndefined ← findUndefined obj lastDefined length firstUndefined
      let numHoles := if !(obj firstUndefined).hasOwn then numHoles + 1 else numHoles
      let (lastDefined, numHoles) ← findLastDefined obj firstUndefined length lastDefined numHoles
      let obj :=
        if firstUndefined < lastDefined then
          (obj.set firstUndefined (obj lastDefined).read).set lastDefined .undef
        else obj
      fillLoop length fuel obj firstUndefined lastDefined numHoles
    else some (obj, firstUndefined, numHoles)

/-- The loops that write the same slot to all indices of a range. -/
def Obj.fill (obj : Obj α) (from_ to_ : Nat) (slot : Slot α) : Obj α :=
  (range' from_ (to_ - from_)).foldl (fun obj i => obj.set i slot) obj

/-- The object and the number of defined elements. -/
def safeRemoveArrayHoles (obj : Obj α) (length : Nat) : Option (Obj α × Nat) := do
  let (obj, firstUndefined, numHoles) ← fillLoop length (2 * length) obj 0 (length - 1) 0
  let firstUndefined :=
    if !(obj firstUndefined).isUndefined then firstUndefined + 1 else firstUndefined
  let obj := obj.fill firstUndefined (length - numHoles) .undef
  let obj := obj.fill (length - numHoles) length .hole
  return (obj, firstUndefined)

section Slots

variable (obj : Obj α)

/-- The slots below a length. -/
def slots (length : Nat) : List (Slot α) := (List.range length).map obj

/-- The defined values below a length, in order. -/
def definedValues (length : Nat) : List α := (slots obj length).filterMap Slot.value?

def holes (length : Nat) : Nat := (slots obj length).countP fun slot => !slot.hasOwn

def ownUndefineds (length : Nat) : Nat := (slots obj length).countP Slot.isOwnUndefined

theorem slots_succ (n : Nat) : slots obj (n + 1) = slots obj n ++ [obj n] := by
  simp [slots, range_succ]

@[simp] theorem length_slots (n : Nat) : (slots obj n).length = n := by simp [slots]

theorem slots_getElem? {i n : Nat} (h : i < n) : (slots obj n)[i]? = some (obj i) := by
  simp [slots, List.getElem?_range h]

theorem holes_succ (n : Nat) : holes obj (n + 1) = holes obj n + if (obj n).hasOwn then 0 else 1 := by
  cases h : (obj n).hasOwn <;> simp [holes, slots_succ, h]

theorem definedValues_succ (n : Nat) :
    definedValues obj (n + 1) = definedValues obj n ++ (obj n).value?.toList := by
  cases h : (obj n).value? <;> simp [definedValues, slots_succ, h]

theorem ownUndefineds_succ (n : Nat) :
    ownUndefineds obj (n + 1) = ownUndefineds obj n + if (obj n).isOwnUndefined then 1 else 0 := by
  cases h : (obj n).isOwnUndefined <;> simp [ownUndefineds, slots_succ, h]

/-- Every slot is one of the three. -/
theorem slots_partition (n : Nat) : (definedValues obj n).length + ownUndefineds obj n + holes obj n = n := by
  induction n with
  | zero => simp [definedValues, ownUndefineds, holes, slots]
  | succ n ih =>
    rw [definedValues_succ, ownUndefineds_succ, holes_succ, length_append]
    cases obj n <;> simp [Slot.value?, Slot.isOwnUndefined, Slot.hasOwn] <;> omega

end Slots

end W16.ArrayHoles

/-!
## Removing holes loses nothing

The loop keeps the defined values, and has counted the holes outside of its window. When the window
has one index left, all defined elements are before it or at it.
-/
namespace W16.ArrayHoles

variable {α : Type} {obj : Obj α} {i j n : Nat} {slot : Slot α}

section Updates

@[simp] theorem set_same : obj.set i slot i = slot := by simp [Obj.set]

@[simp] theorem set_other (h : j ≠ i) : obj.set i slot j = obj j := by simp [Obj.set, h]

theorem slots_set : slots (obj.set i slot) n = (slots obj n).set i slot := by
  apply List.ext_getElem?
  intro k
  by_cases hk : k < n
  · rw [slots_getElem? _ hk]
    by_cases hki : k = i
    · simp_all
    · rw [set_other hki, List.getElem?_set_ne (Ne.symm hki), slots_getElem? _ hk]
  simp_all

theorem slots_congr {obj' : Obj α} (h : ∀ i < n, obj' i = obj i) : slots obj' n = slots obj n := by
  apply List.map_congr_left
  intro i hi
  exact h i (List.mem_range.1 hi)

/-- Slots without a value count for nothing among the values. -/
theorem filterMap_set (slot : Slot α) {l : List (Slot α)} {slot' : Slot α} (hi : l[i]? = some slot')
    (hslot : slot.value? = none) (hslot' : slot'.value? = none) :
    (l.set i slot).filterMap Slot.value? = l.filterMap Slot.value? := by
  induction l generalizing i with
  | nil => simp at hi
  | cons a l ih =>
    cases i with
    | zero =>
      grind
    | succ i =>
      simp_all [List.filterMap_cons]

/-- A value that is moved to an index without one stays among the values. -/
theorem definedValues_move {f l : Nat} (hfl : f < l) (hl : l < n) (hf : (obj f).value? = none) :
    (definedValues ((obj.set f (obj l)).set l .undef) n).Perm (definedValues obj n) := by
  have hfn : f < (slots obj n).length := by rw [length_slots]; omega
  have hln : l < (slots obj n).length := by rw [length_slots]; omega
  have hgetf : (slots obj n)[f] = obj f := by
    have := slots_getElem? obj (i := f) (n := n) (by omega)
    grind
  have hgetl : (slots obj n)[l] = obj l := by
    have := slots_getElem? obj (i := l) (n := n) hl
    grind
  have hswap := List.set_set_perm hfn hln
  rw [hgetf, hgetl] at hswap
  have hmoved : definedValues ((obj.set f (obj l)).set l .undef) n =
      (((slots obj n).set f (obj l)).set l (obj f)).filterMap Slot.value? := by
    have hlset : (((slots obj n).set f (obj l)).set l .undef)[l]? = some .undef := by
      grind
    have hback := filterMap_set (obj f) hlset hf rfl
    rw [List.set_set] at hback
    rw [definedValues, slots_set, slots_set, hback]
  rw [hmoved]
  exact hswap.filterMap _

theorem holes_set (obj : Obj α) (slot : Slot α) (hi : i < n) : holes (obj.set i slot) n + (if (obj i).hasOwn then 0 else 1) =
    holes obj n + if slot.hasOwn then 0 else 1 := by
  induction n with
  | zero => omega
  | succ n ih =>
    rw [holes_succ, holes_succ]
    by_cases hin : i = n
    · subst hin
      have hsame : holes (obj.set i slot) i = holes obj i := by
        rw [holes, slots_congr fun k hk => set_other (by omega), holes]
      rw [hsame, set_same]
      omega
    · rw [set_other (Ne.symm hin)]
      omega

end Updates

section Find

theorem findUndefined_spec (obj : Obj α) {lastDefined : Nat} (fuel firstUndefined : Nat)
    (hle : firstUndefined ≤ lastDefined) (hfuel : lastDefined < firstUndefined + fuel) :
    ∃ f, findUndefined obj lastDefined fuel firstUndefined = some f ∧ firstUndefined ≤ f ∧
      f ≤ lastDefined ∧ (∀ i, firstUndefined ≤ i → i < f → (obj i).isUndefined = false) ∧
      (f < lastDefined → (obj f).isUndefined = true) := by
  induction fuel generalizing firstUndefined with
  | zero => omega
  | succ fuel ih =>
    rw [findUndefined]
    by_cases h : (firstUndefined < lastDefined && !(obj firstUndefined).isUndefined) = true
    · grind
    grind

theorem findLastDefined_spec (obj : Obj α) {firstUndefined : Nat} (fuel lastDefined numHoles : Nat)
    (hle : firstUndefined ≤ lastDefined) (hfuel : lastDefined < firstUndefined + fuel) :
    ∃ l m, findLastDefined obj firstUndefined fuel lastDefined numHoles = some (l, m) ∧
      firstUndefined ≤ l ∧ l ≤ lastDefined ∧
      (∀ i, l < i → i ≤ lastDefined → (obj i).isUndefined = true) ∧
      (firstUndefined < l → (obj l).isUndefined = false) ∧
      m + holes obj (l + 1) = numHoles + holes obj (lastDefined + 1) := by
  induction fuel generalizing lastDefined numHoles with
  | zero => omega
  | succ fuel ih =>
    rw [findLastDefined]
    by_cases h : (firstUndefined < lastDefined && (obj lastDefined).isUndefined) = true
    · have hparts : firstUndefined < lastDefined ∧ (obj lastDefined).isUndefined = true := by
        simpa using h
      obtain ⟨l, m, hl, hle', hle'', hundef, hstop, hholes⟩ := ih (lastDefined - 1)
        (if !(obj lastDefined).hasOwn then numHoles + 1 else numHoles) (by omega) (by omega)
      refine ⟨l, m, by rw [if_pos h, hl], hle', by omega, fun i hi hi' => ?_, hstop, ?_⟩
      · grind
      · rw [Nat.sub_add_cancel (by omega)] at hholes
        rw [hholes, holes_succ obj lastDefined]
        grind
    · refine ⟨lastDefined, numHoles, by rw [if_neg h], hle, Nat.le_refl _, by omega, fun hlt => ?_, rfl⟩
      simpa [hlt] using h

end Find

end W16.ArrayHoles

/-!
## The array without its holes

An iteration keeps the window's invariant or ends with all holes counted. Behind the defined
elements the two last loops then write as many undefined elements and holes as there were.
-/
namespace W16.ArrayHoles

variable {α : Type} {obj obj₀ : Obj α} {f l length numHoles : Nat}

/-- All holes outside of the window are counted, and all defined elements behind it are moved. -/
structure Window (obj₀ obj : Obj α) (length f l numHoles : Nat) : Prop where
  le : f ≤ l
  lt : l < length
  before : ∀ i < f, (obj i).isUndefined = false
  behind : ∀ i, l < i → i < length → (obj i).isUndefined = true
  counted : numHoles + holes obj (l + 1) = holes obj₀ length
  values : (definedValues obj length).Perm (definedValues obj₀ length)
  outside : ∀ i, length ≤ i → obj i = obj₀ i

/-- The window is one index, and no hole is left to count. -/
structure Filled (obj₀ obj : Obj α) (length f numHoles : Nat) : Prop where
  lt : f < length
  before : ∀ i < f, (obj i).isUndefined = false
  behind : ∀ i, f < i → i < length → (obj i).isUndefined = true
  counted : numHoles = holes obj₀ length
  values : (definedValues obj length).Perm (definedValues obj₀ length)
  outside : ∀ i, length ≤ i → obj i = obj₀ i

section Slots

theorem Slot.hasOwn_of_value {slot : Slot α} (h : slot.isUndefined = false) : slot.hasOwn = true := by
  cases slot <;> simp_all [isUndefined, hasOwn]

theorem Slot.read_of_value {slot : Slot α} (h : slot.isUndefined = false) : slot.read = slot := by
  cases slot <;> simp_all [isUndefined, read]

theorem Slot.value?_eq_none {slot : Slot α} (h : slot.isUndefined = true) : slot.value? = none := by
  cases slot <;> simp_all [isUndefined, value?]

/-- There are no holes among values. -/
theorem holes_of_values {n : Nat} (h : ∀ i < n, (obj i).isUndefined = false) : holes obj n = 0 := by
  induction n with
  | zero => rfl
  | succ n ih =>
    grind -linarith [holes_succ, Slot.hasOwn_of_value]

theorem definedValues_of_values {n : Nat} (h : ∀ i < n, (obj i).isUndefined = false) :
    slots obj n = (definedValues obj n).map .value := by
  induction n with
  | zero => rfl
  | succ n ih =>
    rw [slots_succ, definedValues_succ, ih fun i hi => h i (by omega), List.map_append]
    have hn := h n (by omega)
    cases hslot : obj n <;> simp_all [Slot.isUndefined, Slot.value?]

theorem definedValues_of_undefined {d : Nat} (k : Nat)
    (h : ∀ i, d ≤ i → i < d + k → (obj i).isUndefined = true) :
    definedValues obj (d + k) = definedValues obj d := by
  induction k with
  | zero => rfl
  | succ k ih =>
    have hlast := Slot.value?_eq_none (h (d + k) (by omega) (by omega))
    rw [← Nat.add_assoc, definedValues_succ, hlast, ih fun i hi hi' => h i hi (by omega)]
    simp

theorem slots_add (n k : Nat) : slots obj (n + k) = slots obj n ++ (List.range k).map fun i => obj (n + i) := by
  simp [slots, List.range_add]

theorem fill_apply (from_ k : Nat) (slot : Slot α) (i : Nat) :
    obj.fill from_ (from_ + k) slot i = if from_ ≤ i ∧ i < from_ + k then slot else obj i := by
  rw [Obj.fill, Nat.add_sub_cancel_left]
  induction k with
  | zero => rw [if_neg (by omega), List.range'_zero, List.foldl_nil]
  | succ k ih =>
    rw [List.range'_concat, List.foldl_append]
    simp only [List.foldl_cons, List.foldl_nil, Nat.one_mul]
    by_cases hi : i = from_ + k
    · subst hi
      simp
    · rw [set_other hi, ih]
      congr 1
      simp only [eq_iff_iff]
      omega

end Slots

section Loop

/-- One iteration: the window is empty, or it has shrunk and starts with a value. -/
theorem window_step (hw : Window obj₀ obj length f l numHoles) (hfl : f < l) :
    ∃ f' l' m, findUndefined obj l length f = some f' ∧
      findLastDefined obj f' length l (if !(obj f').hasOwn then numHoles + 1 else numHoles) = some (l', m) ∧
      (f' = l' → Filled obj₀ obj length f' m) ∧
      (f' < l' → f ≤ f' ∧ l' ≤ l ∧ ((obj f).isUndefined = false → f < f') ∧
        ((((obj.set f' (obj l').read).set l' .undef) f').isUndefined = false) ∧
        Window obj₀ ((obj.set f' (obj l').read).set l' .undef) length f' l' m) ∧
      f' ≤ l' := by
  have hlt := hw.lt
  obtain ⟨f', hf', hff', hf'l, hvals, hstop⟩ := findUndefined_spec obj length f (Nat.le_of_lt hfl) (by omega)
  obtain ⟨l', m, hl', hflt, hl'l, hundefined, hstop', hholes⟩ :=
    findLastDefined_spec obj length l (if !(obj f').hasOwn then numHoles + 1 else numHoles) hf'l (by omega)
  have hbefore : ∀ i < f', (obj i).isUndefined = false := by
    intro i hi
    by_cases hif : i < f
    · exact hw.before i hif
    · exact hvals i (by omega) hi
  have hbehind : ∀ i, l' < i → i < length → (obj i).isUndefined = true := by
    intro i hi hi'
    by_cases hil : i ≤ l
    · exact hundefined i hi hil
    · exact hw.behind i (by omega) hi'
  have hcounted : m + holes obj (l' + 1) = holes obj₀ length + if (obj f').hasOwn then 0 else 1 := by
    have := hw.counted
    grind
  have hnone : holes obj f' = 0 := holes_of_values hbefore
  refine ⟨f', l', m, hf', hl', fun heq => ?_, fun hflt => ?_, hflt⟩
  · subst heq
    rw [holes_succ, hnone] at hcounted
    exact ⟨by omega, hbefore, hbehind, by omega, hw.values, hw.outside⟩
  · have hundef := hstop (by omega)
    have hvalue := hstop' hflt
    have hfirst : ((obj.set f' (obj l')).set l' .undef) f' = obj l' := by
      rw [set_other (by omega), set_same]
    rw [Slot.read_of_value hvalue]
    refine ⟨hff', hl'l, fun h => ?_, by rw [hfirst, hvalue], ?_⟩
    · grind
    refine ⟨by omega, by omega, fun i hi => ?_, fun i hi hi' => ?_, ?_,
      (definedValues_move hflt (by omega) (Slot.value?_eq_none hundef)).trans hw.values,
      fun i hi => ?_⟩
    · rw [set_other (by omega), set_other (by omega)]
      exact hbefore i hi
    · rw [set_other (by omega), set_other (by omega)]
      exact hbehind i hi hi'
    · -- The hole at the front has been counted, and is none of the window any more.
      have hf := holes_set obj (obj l') (show f' < l' + 1 by omega)
      have hl := holes_set (obj.set f' (obj l')) .undef (show l' < l' + 1 by omega)
      rw [set_other (by omega), Slot.hasOwn_of_value hvalue] at hl
      rw [Slot.hasOwn_of_value hvalue] at hf
      have hown : (Slot.undef : Slot α).hasOwn = true := rfl
      simp only [hown, if_true] at hl hf
      omega
    · rw [set_other (by omega), set_other (by omega)]
      exact hw.outside i hi

/-- The fuel is more than twice the window's size, and ends with all holes counted. -/
theorem fillLoop_spec (fuel : Nat) (hw : Window obj₀ obj length f l numHoles)
    (hfuel : 2 * l + (if (obj f).isUndefined then 1 else 0) < 2 * f + fuel)
    (hstart : f = l → Filled obj₀ obj length f numHoles) :
    ∃ obj' f' m, fillLoop length fuel obj f l numHoles = some (obj', f', m) ∧ Filled obj₀ obj' length f' m := by
  induction fuel generalizing obj f l numHoles with
  | zero =>
    have := hw.le
    omega
  | succ fuel ih =>
    rw [fillLoop]
    by_cases hfl : f < l
    · obtain ⟨f', l', m, hf', hl', hend, hnext, hle⟩ := window_step hw hfl
      simp only [hfl, if_true, hf', hl', Option.bind_eq_bind, Option.bind_some]
      by_cases hflt : f' < l'
      · obtain ⟨hff', hl'l, hgrow, hfirst, hw'⟩ := hnext hflt
        simp only [hflt, if_true]
        refine ih hw' ?_ (by omega)
        grind -linarith
      · have heq : f' = l' := by omega
        subst heq
        cases fuel with
        | zero => split at hfuel <;> omega
        | succ fuel => exact ⟨obj, f', m, by simp [fillLoop], hend rfl⟩
    · have := hw.le
      grind -linarith

end Loop

theorem safeRemoveArrayHoles_compacts (obj : Obj α) (length : Nat) (h : 2 ≤ length) :
    ∃ obj' d, ∃ ws : List α, safeRemoveArrayHoles obj length = some (obj', d) ∧
      ws.Perm (definedValues obj length) ∧ ws.length = d ∧
      slots obj' length = ws.map .value ++ List.replicate (ownUndefineds obj length) Slot.undef ++
        List.replicate (holes obj length) Slot.hole ∧
      ∀ i, length ≤ i → obj' i = obj i := by
  have hstart : Window obj obj length 0 (length - 1) 0 := by
    refine ⟨by omega, by omega, by omega, by omega, ?_, List.Perm.refl _, fun _ _ => rfl⟩
    rw [Nat.sub_add_cancel (by omega), Nat.zero_add]
  obtain ⟨obj₁, f, m, hloop, hfilled⟩ := fillLoop_spec (2 * length) hstart (by split <;> omega) (by omega)
  have hflt := hfilled.lt
  -- The window's last index has the last defined element, or none.
  obtain ⟨d, hd, hvalues, hundefined⟩ : ∃ d, (if !(obj₁ f).isUndefined then f + 1 else f) = d ∧
      (∀ i < d, (obj₁ i).isUndefined = false) ∧
      ∀ i, d ≤ i → i < length → (obj₁ i).isUndefined = true := by
    cases hf : (obj₁ f).isUndefined with
    | false =>
      refine ⟨f + 1, by simp, fun i hi => ?_, fun i hi => hfilled.behind i (by omega)⟩
      by_cases heq : i = f
      · rw [heq, hf]
      · exact hfilled.before i (by omega)
    | true =>
      refine ⟨f, by simp, hfilled.before, fun i hi hi' => ?_⟩
      by_cases heq : i = f
      · rw [heq, hf]
      · exact hfilled.behind i (by omega) hi'
  have hdle : d ≤ length := by
    rw [← hd]
    split <;> omega
  have hall : definedValues obj₁ length = definedValues obj₁ d := by
    have := definedValues_of_undefined (length - d) fun i hi hi' =>
      hundefined i hi (by omega)
    rwa [Nat.add_sub_cancel' hdle] at this
  have hslots := definedValues_of_values hvalues
  have hlength : (definedValues obj₁ d).length = d := by
    have := congrArg List.length hslots
    simpa using this.symm
  have hperm := hfilled.values
  rw [hall] at hperm
  have hpartition := slots_partition obj length
  rw [← hperm.length_eq, hlength] at hpartition
  have hm := hfilled.counted
  obtain ⟨u, hu⟩ : ∃ u, ownUndefineds obj length = u := ⟨_, rfl⟩
  obtain ⟨n, hn⟩ : ∃ n, holes obj length = n := ⟨_, rfl⟩
  have hsplit : length - m = d + u := by omega
  have hlen : length = d + u + n := by omega
  refine ⟨(obj₁.fill d (d + u) .undef).fill (d + u) (d + u + n) .hole, d,
    definedValues obj₁ d, ?_, hperm, hlength, ?_, fun i hi => ?_⟩
  · simp only [safeRemoveArrayHoles, hloop, Option.bind_eq_bind, Option.bind_some, hd, hsplit]
    rw [← hlen]
    rfl
  · rw [hu, hn, hlen, slots_add, slots_add, ← hslots]
    congr 1
    · congr 1
      · apply slots_congr
        intro i hi
        rw [fill_apply, fill_apply, if_neg (by omega), if_neg (by omega)]
      · rw [List.eq_replicate_iff]
        refine ⟨by simp, fun slot hslot => ?_⟩
        obtain ⟨i, hi, rfl⟩ := List.mem_map.1 hslot
        rw [List.mem_range] at hi
        rw [fill_apply, fill_apply, if_neg (by omega), if_pos (by omega)]
    · rw [List.eq_replicate_iff]
      refine ⟨by simp, fun slot hslot => ?_⟩
      obtain ⟨i, hi, rfl⟩ := List.mem_map.1 hslot
      rw [List.mem_range] at hi
      rw [fill_apply, if_pos (by omega)]
  · rw [fill_apply, fill_apply, if_neg (by omega), if_neg (by omega)]
    exact hfilled.outside i hi

theorem safeRemoveArrayHoles_compacts_sparse : ∃ obj', ∃ ws : List Nat, safeRemoveArrayHoles
        (fun i => [.hole, .value 5, .undef, .hole, .value 7].getD i .hole) 5 = some (obj', 2) ∧
      ws.Perm [5, 7] ∧ slots obj' 5 = ws.map .value ++ [Slot.undef, Slot.hole, Slot.hole] := by
  obtain ⟨obj', d, ws, hrun, hperm, hlength, hslots, _⟩ := safeRemoveArrayHoles_compacts
    (fun i => [.hole, .value 5, .undef, .hole, .value 7].getD i .hole) 5 (by decide)
  obtain rfl : d = 2 := by rw [← hlength, hperm.length_eq]; rfl
  exact ⟨obj', ws, hrun, hperm, by rw [hslots, List.append_assoc]; rfl⟩

end W16.ArrayHoles
